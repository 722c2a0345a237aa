import ConstPool.Proofs.Record.Tally
import ConstPool.Proofs.Sites

/-!
# What sites ask for

Over a pool in which its arguments lie, a site asks for one thing: it comes to a fault before any
body runs, or to one request, and it does so in every later pool. What the sites of a wave do to a
stock is told by the inquiries that they pose. A site that fails before any body runs poses none,
and neither does one whose request does not come down to a body.

In which order the sites are taken changes the order in which inquiries are posed, and nothing else.

* `Analysis.Poses`: what a site comes down to.
* `Analysis.Sound.exists_poses`: every site whose arguments are there comes down to one thing.
* `Log.posed`: the record of what sites ask for.
* `Log.perm_asked_posed`: sites in another order ask for the same.
-/

namespace ConstPool

open Draft Relation

/-! ### One site -/

namespace Analysis

/-- What a site comes down to over all pools that keep the constants of `p`: a fault, or an inquiry
that is one request. -/
inductive Poses (a : Analysis) (p : Pool) (site : Site) : Except Fault Inquiry → Prop
  | refused {f : Fault} : f.Benign →
    (∀ s : Stock, p.Keeps s.pool → a.siteRequest site s = .error f s) → Poses a p site (.error f)
  | asked {r : Request ValueId Atom} {t : Inquiry} : r.Declared a.program → Request.Means p r t →
    (∀ s : Stock, p.Keeps s.pool → a.siteRequest site s = .ok r s) → Poses a p site (.ok t)

/-- Every site whose arguments lie in a pool comes down to one thing. -/
theorem Sound.exists_poses {a : Analysis} (hs : a.Sound) {p : Pool} (hsound : p.Sound)
    (hplace : p.InPlace) {site : Site} (h : site.Stored p) : ∃ x, a.Poses p site x := by
  have hsame : ∀ id, .const id ∈ site.types ∨ .const id ∈ site.args →
      ∀ s : Stock, p.Keeps s.pool → s.pool.get id = p.get id := by
    intro id hid s hkeeps
    obtain ⟨value, hvalue⟩ := Option.isSome_iff_exists.1 (Pool.get?_isSome_iff.2 (h id hid))
    rw [Pool.get_eq_ok_iff.2 hvalue, Pool.get_eq_ok_iff.2 (hkeeps id value hvalue)]
  cases a.reads_siteRequest hs.program site hsame with
  | error hrun hbenign => exact ⟨_, .refused (hbenign h) hrun⟩
  | ok hrun hrequest =>
    obtain ⟨f, types, args, rfl, -, hdeclared, htypes, hargs⟩ := hrequest
    have hinplace : Request.InPlace p (.call f types args) :=
      ⟨fun id hid => (htypes id hid).inPlace, hargs⟩
    obtain ⟨t, ht⟩ := hinplace.exists_means hsound hplace
    exact ⟨_, .asked hdeclared ht hrun⟩

end Analysis

/-! ### Several sites -/

namespace Log

variable {a : Analysis}

/-- The inquiry that comes down to a body. -/
def answerable (a : Analysis) : Except Fault Inquiry → Option Inquiry
  | .ok t =>
    match a.bodyOf t with
    | .ok _ => some t
    | .error _ => none
  | .error _ => none

/-- The record of inquiries that are posed: those that come down to a body are asked for, and
nothing is pooled. -/
def posed (a : Analysis) (inquiries : List (Except Fault Inquiry)) : Log :=
  { asked := inquiries.filterMap (answerable a) }

/-- One inquiry is asked for if it comes down to a body. -/
theorem posed_ok (a : Analysis) (t : Inquiry) : posed a [.ok t] = ({} : Log).note a t := by
  rcases hbody : a.bodyOf t with f | body
  · simp [posed, answerable, hbody, note_of_error hbody]
  · simp [posed, answerable, hbody, note_of_ok hbody, ask]

/-- What two batches pose is what one poses and then what the other does. -/
theorem posed_append (a : Analysis) (xs ys : List (Except Fault Inquiry)) :
    posed a (xs ++ ys) = posed a xs ++ posed a ys :=
  congrArg₂ Log.mk rfl List.filterMap_append

/-- What the first request poses comes before the rest. -/
theorem posed_cons (a : Analysis) (x : Except Fault Inquiry) (xs : List (Except Fault Inquiry)) :
    posed a (x :: xs) = posed a [x] ++ posed a xs := posed_append a [x] xs

/-- Nothing is pooled for inquiries alone. -/
theorem not_pooled_posed (xs : List (Except Fault Inquiry)) (u : Tree Scalar) :
    ¬ (posed a xs).Pooled u := by
  rintro ⟨t, ht, -⟩
  cases ht

/-- It does not matter in which order inquiries are posed: the same is asked for. -/
theorem perm_asked_posed {xs ys : List (Except Fault Inquiry)} (h : xs.Perm ys) :
    (posed a xs).asked.Perm (posed a ys).asked := h.filterMap _

end Log

end ConstPool
