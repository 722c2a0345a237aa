import ConstPool.Proofs.Resolve

/-!
# How a stock comes about

A stock begins empty. Then values are handed in, requests are issued and uses are recorded, in any
order. Every request names a function of the program, and the identities among its arguments are
known. Whatever the order, the cache stays faithful.

A property of requests that is upheld (`Analysis.Upholds`) is proved once for one request on a
stock where it holds of the cache, and then it holds in every history. So results about what is
known of the cache need not look at histories any more.

* `Stock.Step`: one step of a history, with conditions on values and requests.
* `Stock.Reached`: a stock that has a history.
* `Analysis.Upholds`: something that is known about all requests.
* `Stock.Reached.faithful`: it is known about the outcomes in the cache.
-/

namespace ConstPool

open Draft Relation

/-! ### Known arguments -/

/-- A scalar, or an identity that lies in the pool. -/
def Atom.Known (pool : Pool) : Atom → Prop
  | .scalar _ => True
  | .ref id => id.index < pool.size

/-- The identities among the arguments of a request lie in the pool. -/
def Request.Known (pool : Pool) : Request ValueId Atom → Prop
  | .call _ types args => (∀ id ∈ types, id.index < pool.size) ∧ ∀ a ∈ args, a.Known pool
  | .read _ => True

/-- A constant that is kept is known. -/
theorem Pool.Keeps.size_le {p q : Pool} (h : p.Keeps q) {id : ValueId} (hid : id.index < p.size) :
    id.index < q.size := by
  obtain ⟨value, hvalue⟩ := Option.isSome_iff_exists.1 (Pool.get?_isSome_iff.2 hid)
  exact Pool.lt_size_of_get? (h id value hvalue)

/-- Every known atom is a tree whose leaves tell how they are held. -/
theorem Atom.Known.exists_means {pool : Pool} (hsound : pool.Sound) {a : Atom} (h : a.Known pool) :
    ∃ t : Tree Holding, Means pool (.atom a) t := by
  cases a with
  | scalar s => exact ⟨_, .inPlace s⟩
  | ref id =>
    obtain ⟨value, hvalue⟩ := Option.isSome_iff_exists.1 (Pool.get?_isSome_iff.2 h)
    cases value with
    | scalar s => exact ⟨_, .byReference hvalue rfl⟩
    | shape layer => exact Draft.exists_means hsound (fun _ _ _ _ _ s _ => ⟨_, rfl⟩) hvalue

/-- Every known request is one for trees whose leaves tell how they are held. -/
theorem Request.Known.exists_means {pool : Pool} (hsound : pool.Sound)
    {r : Request ValueId Atom} (h : r.Known pool) :
    ∃ t : Request (Tree Holding) (Tree Holding), Request.Means pool r t := by
  cases r with
  | call f types args =>
    obtain ⟨types', htypes⟩ := exists_forall₂ fun id hid =>
      Atom.Known.exists_means hsound (a := .ref id) (h.1 id hid)
    obtain ⟨args', hargs⟩ := exists_forall₂ fun a ha => (h.2 a ha).exists_means hsound
    exact ⟨_, .call f htypes hargs⟩
  | read name => exact ⟨_, .read name⟩

/-! ### Scalars in place -/

/-- Scalars are kept in place: no constant has a part that is the identity of a scalar. -/
def Pool.InPlace (pool : Pool) : Prop :=
  ∀ {id layer}, pool.get? id = some (.shape layer) →
    ∀ child ∈ (Value.shape layer).children, ∀ s, pool.get? child ≠ some (.scalar s)

/-- A scalar, or the identity of a constant that is none. -/
def Atom.InPlace (pool : Pool) : Atom → Prop
  | .scalar _ => True
  | .ref id => ∃ layer, pool.get? id = some (.shape layer)

/-- The identities among the arguments of a request are those of constants that are no scalars. -/
def Request.InPlace (pool : Pool) : Request ValueId Atom → Prop
  | .call _ types args =>
    (∀ id ∈ types, (Atom.ref id).InPlace pool) ∧ ∀ a ∈ args, a.InPlace pool
  | .read _ => True

/-- Where scalars are kept in place, every such atom means a tree of scalars. -/
theorem Atom.InPlace.exists_means {pool : Pool} (hsound : pool.Sound) (hpool : pool.InPlace)
    {a : Atom} (h : a.InPlace pool) : ∃ t : Tree Scalar, Means pool (.atom a) t := by
  cases a with
  | scalar s => exact ⟨_, .inPlace s⟩
  | ref id =>
    obtain ⟨layer, hlayer⟩ := h
    refine Draft.exists_means hsound (fun id layer hget child hchild s hs => ?_) hlayer
    exact absurd hs (hpool hget child hchild s)

/-- Where scalars are kept in place, every such request is one for trees of scalars. -/
theorem Request.InPlace.exists_means {pool : Pool} (hsound : pool.Sound) (hpool : pool.InPlace)
    {r : Request ValueId Atom} (h : r.InPlace pool) :
    ∃ t : Request (Tree Scalar) (Tree Scalar), Request.Means pool r t := by
  cases r with
  | call f types args =>
    obtain ⟨types', htypes⟩ := exists_forall₂ fun id hid => (h.1 id hid).exists_means hsound hpool
    obtain ⟨args', hargs⟩ := exists_forall₂ fun a ha => (h.2 a ha).exists_means hsound hpool
    exact ⟨_, .call f htypes hargs⟩
  | read name => exact ⟨_, .read name⟩

/-- A constant that is none of the scalars is known. -/
theorem Request.InPlace.known {pool : Pool} {r : Request ValueId Atom} (h : r.InPlace pool) :
    r.Known pool := by
  have hatom : ∀ {a : Atom}, a.InPlace pool → a.Known pool := by
    intro a ha
    cases a with
    | scalar s => trivial
    | ref id =>
      obtain ⟨layer, hlayer⟩ := ha
      exact Pool.lt_size_of_get? hlayer
  cases r with
  | call f types args => exact ⟨fun id hid => hatom (h.1 id hid), fun a ha => hatom (h.2 a ha)⟩
  | read name => trivial

/-! ### Requests that mean something -/

/-- What is requested of drafts is what is requested of trees. -/
theorem Request.Means.declared_iff {α : Type} [Leaf α] {pool : Pool} {p : Program}
    {r : Request ValueId Atom} {t : Request (Tree α) (Tree α)} (h : Request.Means pool r t) :
    r.Declared p ↔ t.Declared p := by
  cases h <;> exact .rfl

/-- The arguments of a request that means something are known. -/
theorem Request.Means.known {α : Type} [Leaf α] {pool : Pool} {r : Request ValueId Atom}
    {t : Request (Tree α) (Tree α)} (h : Request.Means pool r t) : r.Known pool := by
  cases h with
  | call f htypes hargs =>
    refine ⟨fun id hid => ?_, fun x hx => ?_⟩
    · obtain ⟨u, -, hu⟩ := exists_of_forall₂ htypes hid
      exact hu.known
    · obtain ⟨u, -, hu⟩ := exists_of_forall₂ hargs hx
      cases x with
      | scalar s => trivial
      | ref id => exact hu.known
  | read name => trivial

/-! ### Histories -/

namespace Stock

/-- One step of the history of a stock. The values that are handed in satisfy `V`, the requests that
are issued satisfy `Q`. -/
inductive Step (a : Analysis) (V : Pool → Value → Prop) (Q : Pool → Request ValueId Atom → Prop) :
    Stock → Stock → Prop
  | intern {s : Stock} {value : Value} : V s.pool value →
    Step a V Q s ((Work.intern value).outcome s).2
  | request {s : Stock} {r : Request ValueId Atom} : r.Declared a.program → Q s.pool r →
    Step a V Q s ((a.invoke r).outcome s).2
  | use (s : Stock) (user : User) (id : ValueId) :
    Step a V Q s { s with uses := s.uses.record user id }

/-- Weaker conditions. -/
theorem Step.mono {a : Analysis} {V V' : Pool → Value → Prop}
    {Q Q' : Pool → Request ValueId Atom → Prop} (hV : ∀ pool value, V pool value → V' pool value)
    (hQ : ∀ pool r, Q pool r → Q' pool r) {s s' : Stock} (h : Step a V Q s s') :
    Step a V' Q' s s' := by
  cases h with
  | intern hvalue => exact .intern (hV _ _ hvalue)
  | request hdeclared hr => exact .request hdeclared (hQ _ _ hr)
  | use user id => exact .use _ user id

/-- Steps of a narrow kind are steps of a wide one. -/
theorem steps_mono {a : Analysis} {V V' : Pool → Value → Prop}
    {Q Q' : Pool → Request ValueId Atom → Prop} (hV : ∀ pool value, V pool value → V' pool value)
    (hQ : ∀ pool r, Q pool r → Q' pool r) {s s' : Stock} (h : ReflTransGen (Step a V Q) s s') :
    ReflTransGen (Step a V' Q') s s' :=
  ReflTransGen.mono (fun _ _ => Step.mono hV hQ) _ _ h

/-- What can follow on a stock: any values, and requests with known arguments. -/
abbrev Leads (a : Analysis) : Stock → Stock → Prop :=
  ReflTransGen (Step a (fun _ _ => True) fun pool r => r.Known pool)

/-- What follows on a stock in an evaluation: requests with arguments that are in place. -/
abbrev Proceeds (a : Analysis) : Stock → Stock → Prop :=
  ReflTransGen (Step a (fun _ _ => False) fun pool r => r.InPlace pool)

/-- A stock that has a history. -/
abbrev Reached (a : Analysis) (s : Stock) : Prop := Leads a {} s

variable {a : Analysis} {s s' : Stock} {P : Account}

/-- Handing in a value changes the pool as it would alone, and leaves the cache. -/
theorem intern_eq (value : Value) (s : Stock) :
    ((Work.intern value).outcome s).1 = (s.pool.intern value).1 ∧
      ((Work.intern value).outcome s).2.pool = (s.pool.intern value).2 ∧
        ((Work.intern value).outcome s).2.memo = s.memo := by
  obtain ⟨pool, uses, memo⟩ := s
  unfold Work.outcome
  simp only [Work.intern, bind, EStateM.bind, Work.onPool]
  rcases pool.intern value with ⟨f | id, q⟩ <;> exact ⟨rfl, rfl, rfl⟩

/-- Handing in a value leaves the cache faithful, whatever comes of it. -/
theorem Faithful.intern (hP : P.Lasting) {keys : List MemoKey} (h : s.Faithful a P keys)
    (value : Value) : Faithful a P keys ((Work.intern value).outcome s).2 ∧
      s.pool.Keeps ((Work.intern value).outcome s).2.pool := by
  obtain ⟨-, hpool, hmemo⟩ := intern_eq value s
  obtain ⟨hsound, hkeeps⟩ := h.sound.intern value
  rw [← hpool] at hsound hkeeps
  exact ⟨h.later hP (congrArg Memo.cells hmemo) hkeeps hsound, hkeeps⟩

end Stock

/-- What is known about a request that no body has issued. -/
theorem Analysis.Sound.answered_invoke {α : Type} [Leaf α] [DecidableEq α] {a : Analysis}
    (hs : a.Sound) {s : Stock} {r : Request ValueId Atom} {t : Request (Tree α) (Tree α)}
    (hdeclared : r.Declared a.program) (hmeans : Request.Means s.pool r t)
    (h : s.Faithful a (a.Explained α) []) :
    Work.Answered α a (a.Explained α) [] s r ((a.invoke r).outcome s) :=
  hs.answered .none (Nat.add_zero _) .of_accepts (fun _ hkey => nomatch hkey) hdeclared hmeans h

/-- Something that is known about every request which no body has issued, as long as it is known
about those in the cache. -/
structure Analysis.Upholds (a : Analysis) (P : Account) : Prop where
  lasting : P.Lasting
  answered : ∀ {s : Stock} {r : Request ValueId Atom}, r.Declared a.program → r.Known s.pool →
    s.Faithful a P [] → Work.Answered Holding a P [] s r ((a.invoke r).outcome s)

/-- The law that every step has an explanation is upheld by a sound analysis. -/
theorem Analysis.Sound.upholds_explained {a : Analysis} (hs : a.Sound) :
    a.Upholds (a.Explained Holding) where
  lasting := lasting_explained
  answered hdeclared hknown h := by
    obtain ⟨t, ht⟩ := hknown.exists_means h.sound
    exact hs.answered_invoke hdeclared ht h

namespace Stock

variable {a : Analysis} {P : Account} {s s' : Stock}

/-- One step leaves the cache faithful and keeps the pool. -/
theorem Step.faithful (hP : a.Upholds P)
    (h : Step a (fun _ _ => True) (fun pool r => r.Known pool) s s')
    (hfaithful : s.Faithful a P []) : s'.Faithful a P [] ∧ s.pool.Keeps s'.pool := by
  cases h with
  | intern => exact hfaithful.intern hP.lasting _
  | request hdeclared hknown =>
    have hanswered := hP.answered hdeclared hknown hfaithful
    exact ⟨hanswered.faithful, hanswered.grows.keeps⟩
  | use user id => exact ⟨hfaithful.later hP.lasting rfl (.refl _) hfaithful.sound, .refl _⟩

/-- A history leaves the cache faithful and keeps the pool. -/
theorem Leads.faithful (hP : a.Upholds P) (h : Leads a s s')
    (hfaithful : s.Faithful a P []) : s'.Faithful a P [] ∧ s.pool.Keeps s'.pool := by
  induction h with
  | refl => exact ⟨hfaithful, .refl _⟩
  | tail _ hstep ih =>
    obtain ⟨hfaithful', hkeeps⟩ := hstep.faithful hP ih.1
    exact ⟨hfaithful', ih.2.trans hkeeps⟩

/-- The cache of a stock that has a history. -/
theorem Reached.faithful (hP : a.Upholds P) (h : Reached a s) : s.Faithful a P [] :=
  (Leads.faithful hP h (.of_empty Pool.sound_empty rfl)).1

end Stock

end ConstPool
