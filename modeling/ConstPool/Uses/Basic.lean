import ConstPool.Site
import ConstPool.Constant.Key
import ConstPool.OrderedSet
import ConstPool.Graph.Reach

/-!
# Uses of constants

A use says that a call site has a constant for its result, or that a constant has another one for
a part. Uses are recorded in the order in which they come up, each once. Beside them stands, for
every user, what it uses, so that the constants of a user are found without going through the uses
of all; that both say the same is part of the type.

* `targets_eq`: what a user uses, in terms of the recorded uses.
-/

namespace ConstPool

/-- What uses a constant. -/
inductive User where
  | site (id : SiteId)
  | value (id : ValueId)
  deriving DecidableEq

/-- A user as a site or a constant. -/
def User.code : User → SiteId ⊕ ValueId
  | .site id => .inl id
  | .value id => .inr id

instance : Key User := .via User.code fun {x y} h => by
  cases x <;> cases y <;> simp_all [User.code]

/-- The constants that a user uses according to a list of uses. -/
def usedBy (user : User) (edges : List (User × ValueId)) : List ValueId :=
  edges.filterMap fun e => if e.1 = user then some e.2 else none

/-- The recorded uses. -/
structure Uses where
  /-- The uses, oldest first. -/
  edges : OrderedSet (User × ValueId)
  /-- What every user uses, newest first. -/
  byUser : Dict User (List ValueId)
  /-- Every user uses what the recorded uses say. -/
  agrees : ∀ user, ((byUser.get? user).getD []).reverse = usedBy user edges.toList

namespace Uses

/-- No uses. -/
def empty : Uses where
  edges := .empty
  byUser := .empty
  agrees _ := rfl

instance : EmptyCollection Uses := ⟨empty⟩

instance : Inhabited Uses := ⟨empty⟩

/-- The lists by user still agree with the edges when both get a new one. -/
theorem agrees_record {edges : OrderedSet (User × ValueId)} {byUser : Dict User (List ValueId)}
    (agrees : ∀ user, ((byUser.get? user).getD []).reverse = usedBy user edges.toList)
    {user : User} {id : ValueId} (h : ¬ edges.contains (user, id)) (other : User) :
    (((byUser.insert user (id :: (byUser.get? user).getD [])).get? other).getD []).reverse =
      usedBy other (edges.insert (user, id)).toList := by
  have hnew : (user, id) ∉ edges.items := fun hm => h (OrderedSet.contains_iff.2 hm)
  have hitems : (edges.insert (user, id)).toList = edges.toList ++ [(user, id)] := by
    simp [OrderedSet.toList, OrderedSet.items_insert_of_not_mem hnew]
  rw [hitems, usedBy, List.filterMap_append]
  by_cases ho : other = user
  · subst ho
    simp [agrees, usedBy]
  · have ho' : user ≠ other := fun e => ho e.symm
    simp [Dict.get?_insert, ho, ho', agrees, usedBy]

/-- Records a use, unless it is known. -/
def record (uses : Uses) (user : User) (id : ValueId) : Uses :=
  if h : uses.edges.contains (user, id) then uses
  else
    { edges := uses.edges.insert (user, id)
      byUser := uses.byUser.insert user (id :: (uses.byUser.get? user).getD [])
      agrees := agrees_record uses.agrees h }

/-- Whether a use is new. -/
def isNew (uses : Uses) (user : User) (id : ValueId) : Bool := !uses.edges.contains (user, id)

/-- Records that a constant has the given parts. -/
def recordParts (uses : Uses) (id : ValueId) (parts : List ValueId) : Uses :=
  parts.foldl (fun acc part => acc.record (.value id) part) uses

/-- The constants that a user uses, in the order of recording. -/
def targets (uses : Uses) (user : User) : List ValueId :=
  ((uses.byUser.get? user).getD []).reverse

/-- The results of the given sites, each once. -/
def rootsOf (uses : Uses) (sites : List SiteId) : List ValueId :=
  Graph.distinct (sites.flatMap fun site => uses.targets (.site site))

/-- A use is recorded among the edges, once. -/
theorem edges_record (uses : Uses) (user : User) (id : ValueId) :
    (uses.record user id).edges = uses.edges.insert (user, id) := by
  unfold record
  split
  · next h => exact (OrderedSet.insert_of_mem (OrderedSet.contains_iff.1 h)).symm
  · rfl

/-- The uses after a record are those before it and the new one. -/
@[simp] theorem mem_record {uses : Uses} {user : User} {id : ValueId} {e : User × ValueId} :
    e ∈ (uses.record user id).edges.items ↔ e ∈ uses.edges.items ∨ e = (user, id) := by
  rw [edges_record]
  exact OrderedSet.mem_items_insert

/-- What a user uses is what the recorded uses say. -/
theorem targets_eq (uses : Uses) (user : User) :
    uses.targets user = usedBy user uses.edges.toList := uses.agrees user

/-- The targets of a user are what its edges lead to. -/
@[simp] theorem mem_targets {uses : Uses} {user : User} {id : ValueId} :
    id ∈ uses.targets user ↔ (user, id) ∈ uses.edges.items := by
  simp only [targets_eq, usedBy, List.mem_filterMap, OrderedSet.mem_toList]
  constructor
  · rintro ⟨⟨u, v⟩, he, h⟩
    split at h
    · next hu =>
      cases hu
      cases h
      exact he
    · cases h
  · intro h
    exact ⟨_, h, by simp⟩

end Uses

end ConstPool
