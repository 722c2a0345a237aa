import ConstPool.Proofs.History
import ConstPool.Proofs.Recovery

/-!
# Identities and results are invisible

In a pool whose constants hold their scalars in place a request has the outcome that it has on
trees of scalars, where there is neither a pool nor a cache. It makes no difference what was
requested before, and with which arguments.

For what was requested before there may be no trees of scalars: an argument may have been the
identity of a scalar. So what is known of the cache is said in terms of trees that tell how scalars
are held, and a stock with an empty cache leads over to trees of scalars.

The evaluator on trees computes a request anew each time it is issued, with a bound on the bodies
that may be nested, and without cells, uses and counts. To say that the two agree is to say that
none of these can be seen in an outcome. In a program without recursion the bound is never reached
as long as it is not below that of the settings. An outcome is a fault or an identity: the fault is
the same, and the identity is one of the tree that is the outcome on trees, in the pool after the
request.

* `Pool.InPlace`: no constant has a part that is the identity of a scalar.
* `Draft.Means.map_inPlace_iff`: a tree of scalars as one that tells how they are held.
* `Analysis.answered_as_on_trees`: the outcome of a request.
-/

namespace ConstPool

open Draft Relation

/-! ### Trees of scalars -/

/-- A tree of scalars is one whose scalars are all held in place. -/
theorem Draft.Means.map_inPlace_iff {pool : Pool} {a : Atom} {t : Tree Scalar} :
    Means pool (.atom a) (t.map Holding.inPlace) ↔ Means pool (.atom a) t := by
  induction t using Tree.induct generalizing a with
  | leaf v =>
    rw [Tree.map_leaf, leaf_iff, leaf_iff]
    simp [Leaf.inPlace, Leaf.byReference]
  | node m hparts hargs =>
    have hlayer : ∀ l : Shape Atom ValueId,
        LayerMeans pool l (m.mapParts (Tree.map Holding.inPlace) (Tree.map Holding.inPlace)) ↔
          LayerMeans pool l m := by
      intro l
      rw [LayerMeans, LayerMeans, Shape.Rel.mapParts_right_iff]
      constructor
      · exact fun h => h.imp_of_mem_right (fun u hu _ => (hparts u hu).1) fun u hu _ =>
          (hargs u hu).1
      · exact fun h => h.imp_of_mem_right (fun u hu _ => (hparts u hu).2) fun u hu _ =>
          (hargs u hu).2
    rw [Tree.map_node, node_iff, node_iff]
    simp only [hlayer]

/-- A constant of a pool as a tree of scalars, and as one that tells how they are held. -/
theorem Pool.Denotes.map_inPlace_iff {pool : Pool} {id : ValueId} {t : Tree Scalar} :
    pool.Denotes id (t.map Holding.inPlace) ↔ pool.Denotes id t :=
  exists_congr fun _ => and_congr_right fun _ => Draft.Means.map_inPlace_iff

/-- A constant of a pool is at most one tree. -/
theorem Pool.Denotes.functional {α : Type} [Leaf α] {pool : Pool} {id : ValueId} {t u : Tree α}
    (h : pool.Denotes id t) (h' : pool.Denotes id u) : t = u := by
  obtain ⟨a, ha, ht⟩ := h
  obtain ⟨b, hb, hu⟩ := h'
  cases ha.symm.trans hb
  exact ht.functional hu

namespace Analysis

variable {a : Analysis}

/-- Where chains are within the limit, a request has the outcome that it has on trees. -/
theorem Sound.agree_answer {α : Type} [Leaf α] [DecidableEq α] (hs : a.Sound)
    (hchains : a.ChainsWithin a.settings.maxCallDepth) {s : Stock} {r : Request ValueId Atom}
    {t : Request (Tree α) (Tree α)} (hdeclared : r.Declared a.program)
    (hmeans : Request.Means s.pool r t) (h : s.Faithful a (a.Explained α) []) {k : Nat}
    (hk : a.Shallow k r.node) :
    Agree Fault.Benign ((a.invoke r).outcome s).2.pool.Denotes ((a.invoke r).outcome s).1
      (a.answer k t) := by
  obtain ⟨hgrows, -, t', ht', hexplained⟩ := hs.answered_invoke hdeclared hmeans h
  obtain rfl := (hmeans.mono hgrows.keeps).functional ht'
  refine hexplained.resolve_right ?_ k hk
  rintro ⟨f, hdeep, -⟩
  exact hchains.not_tooDeep hdeep

/-- Outcomes on trees of scalars and on trees that tell how they are held differ in nothing else. -/
theorem agree_of_agree {p q : Pool} {o o' : Outcome} {x : Except Fault (Tree Holding)}
    {y : Except Fault (Tree Scalar)} (h : Agree Fault.Benign q.Denotes o' x)
    (hx : Agree Fault.Benign p.Denotes o x) (hy : Agree Fault.Benign p.Denotes o y) :
    Agree Fault.Benign q.Denotes o' y := by
  cases hy with
  | ok hu =>
    cases hx with
    | ok hv =>
      obtain rfl := hv.functional (Pool.Denotes.map_inPlace_iff.2 hu)
      cases h with
      | ok hid => exact .ok (Pool.Denotes.map_inPlace_iff.1 hid)
  | error hf =>
    cases hx with
    | error =>
      cases h with
      | error => exact .error hf

/-- In a program without recursion, a request in any stock that keeps scalars in place has the
outcome that it has on trees of scalars: the same fault, or an identity of the same tree. -/
theorem answered_as_on_trees (declarations : List Declaration) (types : Types)
    (settings : Settings)
    (hacyclic : (build (.declareAll {} declarations) types settings).graph.cyclic = [])
    {s : Stock} (hreached : s.Reached (build (.declareAll {} declarations) types settings))
    (hpool : s.pool.InPlace) {r : Request ValueId Atom}
    (hdeclared : r.Declared (.declareAll {} declarations)) (hr : r.InPlace s.pool) :
    ∃ t : Request (Tree Scalar) (Tree Scalar), Request.Means s.pool r t ∧
      ∀ bodies, settings.maxCallDepth ≤ bodies →
        Agree Fault.Benign
          (((build (.declareAll {} declarations) types settings).invoke r).outcome s).2.pool.Denotes
          (((build (.declareAll {} declarations) types settings).invoke r).outcome s).1
          ((build (.declareAll {} declarations) types settings).answer bodies t) := by
  have hs := sound_build (Program.declared_declareAll declarations) types settings
  have hchains := hs.chainsWithin_of_acyclic hacyclic
  have hfaithful := hreached.faithful hs.upholds_explained
  obtain ⟨t, ht⟩ := hr.exists_means hfaithful.sound hpool
  refine ⟨t, ht, fun bodies hle => ?_⟩
  have hshallow := (hs.shallow_of_acyclic hacyclic r.node).mono hle
  obtain ⟨u, hu⟩ := (ht.known).exists_means hfaithful.sound
  -- A stock with the same pool and an empty cache is faithful whatever the leaves are.
  have hempty : ∀ (α : Type) [Leaf α] [DecidableEq α],
      Stock.Faithful (build (.declareAll {} declarations) types settings)
        ((build (.declareAll {} declarations) types settings).Explained α) []
        { pool := s.pool } := fun _ _ _ => .of_empty hfaithful.sound rfl
  exact agree_of_agree (hs.agree_answer hchains hdeclared hu hfaithful hshallow)
    (hs.agree_answer (s := { pool := s.pool }) hchains hdeclared hu (hempty Holding) hshallow)
    (hs.agree_answer (s := { pool := s.pool }) hchains hdeclared ht (hempty Scalar) hshallow)

/-- The function that adds one. -/
def increment : FunctionDecl where
  name := "inc"
  params := [.value "x"]
  body := .binary .add (.name "x") (.scalar (.int 1))
  placement := .topLevel

/-- The program of that function alone. -/
def increments : Analysis := build (.declareAll {} [.function increment]) .empty {}

/-- The increment of five is the increment of the leaf five. -/
theorem answered_as_on_trees_increment :
    ∃ t : Request (Tree Scalar) (Tree Scalar),
      Request.Means {} (.call increment [] [.scalar (.int 5)]) t ∧
        Agree Fault.Benign
          ((increments.invoke (.call increment [] [.scalar (.int 5)])).outcome {}).2.pool.Denotes
          ((increments.invoke (.call increment [] [.scalar (.int 5)])).outcome {}).1
          (increments.answer ({} : Settings).maxCallDepth t) := by
  have hacyclic : increments.graph.cyclic = [] := rfl
  have hpool : ({} : Stock).pool.InPlace := by
    intro id layer hget
    have hnone : ({} : Stock).pool.get? id = none := Pool.get?_eq_none_iff.2 (Nat.zero_le _)
    cases hnone.symm.trans hget
  have hdeclared : increments.program.functions.get? "inc" = some increment := rfl
  have htypes : ∀ id ∈ ([] : List ValueId), (Atom.ref id).InPlace ({} : Stock).pool := by
    intro id hid
    cases hid
  have hargs : ∀ x ∈ [Atom.scalar (.int 5)], x.InPlace ({} : Stock).pool := by
    intro x hx
    rw [List.mem_singleton.1 hx]
    exact trivial
  obtain ⟨t, ht, hagree⟩ := answered_as_on_trees [.function increment] .empty {} hacyclic .refl
    hpool (r := .call increment [] [.scalar (.int 5)]) hdeclared ⟨htypes, hargs⟩
  exact ⟨t, ht, hagree _ (Nat.le_refl _)⟩

/-- The identity of five stands for the leaf five, but it cannot be incremented. -/
theorem increment_of_reference :
    ∃ s : Stock, s.Reached increments ∧ s.pool.InPlace ∧
      s.pool.Denotes ⟨0⟩ (.leaf (.int 5) : Tree Scalar) ∧
      ((increments.invoke (.call increment [] [.ref ⟨0⟩])).outcome s).1 =
        .error (.runtime (.operands "+" "int" "int")) ∧
      increments.answer 1 (.call increment [] [.leaf (.int 5 : Scalar)]) = .ok (.leaf (.int 6)) := by
  let s := ((Work.intern (.scalar (.int 5))).outcome {}).2
  have hpool : s.pool.InPlace := by
    rintro ⟨_ | n⟩ layer hget
    · cases hget
    · cases hget
  exact ⟨s, .single (.intern trivial), hpool, ⟨.scalar (.int 5), rfl, .inPlace _⟩, rfl, rfl⟩
end Analysis

end ConstPool
