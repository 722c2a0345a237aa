import ConstPool.Proofs.Conduct.Body
import ConstPool.Proofs.Resolve

/-!
# What requests leave as it is

Whatever is requested, the stock changes in two ways only: a value is handed in, or the cache
changes. So a property of stocks that handing in a value keeps, and that says nothing about the
cache, is kept by every request, whether it is answered or fails.

* `Stock.Stable`: such a property.
* `Analysis.Sound.conforms_resolve`: it is kept by every request.
* `Request.Seen.run_answeredBy`: a body depends on what it needs alone.
-/

namespace ConstPool

/-- A property of stocks that is kept when a value is handed in, and that does not depend on the
cache. -/
structure Stock.Stable (I : Stock → Prop) : Prop where
  intern : ∀ value s, I s → I ((Work.intern value).outcome s).2
  memo : ∀ {pool uses memo} memo', I ⟨pool, uses, memo⟩ → I ⟨pool, uses, memo'⟩

/-- The terms that ask for a property of the stock and allow every fault. -/
def Terms.keeping (I : Stock → Prop) : Terms where
  holds := I
  admits _ := True

variable {I : Stock → Prop} {β : Type}

/-- A computation on the stock keeps a property. -/
theorem Work.conforms_keeping_iff {x : Work β} :
    Work.Conforms (.keeping I) x ↔ ∀ s, I s → I (x.outcome s).2 := by
  rw [Work.conforms_iff]
  exact ⟨fun h s hs => (h s hs).1, fun h s hs => ⟨h s hs, fun _ _ => trivial⟩⟩

namespace Stock.Stable

/-- A result is looked up, or it is computed and kept. -/
theorem remember (hI : Stable I) {compute : Work ValueId}
    (h : Work.Conforms (.keeping I) compute) (key : MemoKey) :
    Work.Conforms (.keeping I) (Work.remember key compute) := by
  rintro ⟨pool, uses, memo⟩ hs
  unfold Work.remember
  split
  · exact .ok (hI.memo _ hs)
  · exact .error (hI.memo _ hs) trivial
  · exact .error hs trivial
  · have hleaves := h _ (hI.memo (memo.start key) hs)
    dsimp only
    generalize compute _ = r at hleaves ⊢
    cases hleaves with
    | ok hs' => exact .ok (hI.memo _ hs')
    | error hs' => exact .error (hI.memo _ hs') trivial

/-- A stable property may be kept by a body whatever it pools. -/
theorem fair (hI : Stable I) : (Terms.keeping I).Fair where
  dynamic _ _ := trivial
  intern value := Work.conforms_keeping_iff.2 (hI.intern value)

end Stock.Stable

/-- A request that fits is for something declared. -/
theorem Request.Fits.declared {τ ρ : Type} {p : Program} {r : Request τ ρ} (h : r.Fits p) :
    r.Declared p := by
  cases r with
  | call f types args => exact h.1
  | read name => trivial

/-- The surroundings of the body of a request, where every fault is allowed. -/
theorem Request.Seen.equipped {a : Analysis} (hs : a.Sound) (hI : Stock.Stable I)
    {r : Request ValueId Atom} {body : Expr} {s : Surroundings} (h : r.Seen a body s)
    (chain : Chain) {request : Request ValueId Atom → Work ValueId}
    (hrequest : ∀ {r' : Request ValueId Atom}, r'.Declared a.program →
      Work.Conforms (.keeping I) (request r')) :
    Equipped (.keeping I) (a.graph.needs.direct r.node) s
      ⟨a, chain, r.params .ref, request⟩ request where
  fair := hI.fair
  exhausted := trivial
  program := h.program
  types := h.types
  bound := h.bound
  typeParam name _ := by
    have hall : ∀ {γ : Type} (x : Except Fault γ), Results (fun _ => True) anything x := by
      rintro γ (f | b)
      · exact .error trivial
      · exact .ok trivial
    exact (hall _).imp_value fun _ _ _ _ _ => hall _
  named := hs.program.named
  request _ hfits := ⟨rfl, hrequest hfits.declared⟩

/-- Every request keeps what handing in values keeps. The induction is on the number of bodies that
may still be nested. -/
theorem Analysis.Sound.conforms_resolve {a : Analysis} (hs : a.Sound) (hI : Stock.Stable I)
    {callsLeft : Nat} {parent : Option Chain} {r : Request ValueId Atom}
    (hdeclared : r.Declared a.program) :
    Work.Conforms (.keeping I) (a.resolve callsLeft parent r) := by
  induction callsLeft generalizing parent r with
  | zero =>
    refine Work.conforms_keeping_iff.2 fun s hstock => ?_
    rcases hbody : a.bodyOf r with f | body
    · rwa [outcome_resolve_of_error hbody]
    · rwa [outcome_resolve_zero hbody]
  | succ callsLeft ih =>
    rcases hbody : a.bodyOf r with f | body
    · refine Work.conforms_keeping_iff.2 fun s hstock => ?_
      rwa [outcome_resolve_of_error hbody]
    · rcases hrepeated : parent.any fun c => c.contains r.node.name with _ | _
      · obtain ⟨s, hseen⟩ := Request.Passes.seen hs ⟨hdeclared, hbody⟩
        rw [resolve_of_passes hbody hrepeated]
        refine hI.remember (fun stock hstock => ?_) r.key
        exact ((hseen.equipped hs hI _ ih).run hseen.locals hseen.inLoop hseen.vetted hstock).2
      · refine Work.conforms_keeping_iff.2 fun s hstock => ?_
        rwa [outcome_resolve_of_repeated hbody hrepeated]

/-- Vetting found all that a body requests: what is answered to other requests makes no
difference. -/
theorem Request.Seen.run_answeredBy {a : Analysis} (hs : a.Sound) {r : Request ValueId Atom}
    {body : Expr} {s : Surroundings} (h : r.Seen a body s) (chain : Chain) {callsLeft : Nat}
    {request' : Request ValueId Atom → Work ValueId}
    (hsame : ∀ r' : Request ValueId Atom, r'.node ∈ a.graph.needs.direct r.node →
      r'.Fits a.program → request' r' = a.resolve callsLeft (some chain) r') (stock : Stock) :
    (Env.answeredBy ⟨a, chain, r.params .ref, a.resolve callsLeft (some chain)⟩ request').run body
        stock =
      Env.run ⟨a, chain, r.params .ref, a.resolve callsLeft (some chain)⟩ body stock := by
  have hstable : Stock.Stable fun _ => True := ⟨fun _ _ _ => trivial, fun _ _ => trivial⟩
  have hequipped : Equipped (.keeping fun _ => True) (a.graph.needs.direct r.node) s
      ⟨a, chain, r.params .ref, a.resolve callsLeft (some chain)⟩
      (a.resolve callsLeft (some chain)) :=
    h.equipped hs hstable chain fun hdeclared => hs.conforms_resolve hstable hdeclared
  exact ((hequipped.answeredBy hsame).run h.locals h.inLoop h.vetted trivial).1

end ConstPool
