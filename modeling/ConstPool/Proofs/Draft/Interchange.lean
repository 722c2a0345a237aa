import ConstPool.Proofs.Draft.Made
import ConstPool.Eval.Interpretation

/-!
# What is pooled can be put in the place of what is not

A body cannot tell whether a draft has been pooled. Whatever it asks of a draft, it may ask of the
atom as which the draft is pooled: the answers are pooled as one atom, or they are the same fault.
This holds for each of the operands of a question, and however much the pool has grown since.

The reason is that a draft and its atom mean the same tree, and that each question is answered by
the tree: an operator, an element, a member, the elements of a loop, the name of the type, the text
of a message, the questions about types. Each of these has its own lemma that it respects the
meaning, and interchangeability puts them together. Answers are drafts again, made at different
times. They are compared as atoms in the later pool, and a fault is compared with a fault.

* `Draft.Since`: a draft, or the atom as which it has been pooled since.
* `Draft.Interchangeable`: every question has the same answer.
* `Draft.intern_interchangeable`: it has if a draft is pooled.
-/

namespace ConstPool

open Relation

namespace Draft

/-- What a draft over the pool `p` may be in the later pool `q`: what it was, or the atom as which
it has been pooled. -/
inductive Since (p q : Pool) (d : Draft) : Draft → Prop
  | kept : d.Made p → Since p q d d
  | pooled {a : Atom} {s s' : Stock} : d.Made p → p.Leads s.pool → d.intern s = .ok a s' →
    s'.pool.Leads q → Since p q d (.atom a)

/-- Answers that are drafts: they are pooled as one atom, or they are the same fault. -/
abbrev AlikeAnswers (q : Pool) : Except Fault Draft → Except Fault Draft → Prop :=
  Agree (fun _ => True) (Alike q)

/-- Every question about the draft `d` over the pool `p` has the same answer for the draft `e` over
the later pool `q`. What else the question is about may have been pooled in the meantime. -/
structure Interchangeable (p q : Pool) (d e : Draft) : Prop where
  alike : Alike q d e
  isNull : d.isNull = e.isNull
  /-- What a fault says about the type of an operand. -/
  typeName : d.typeName p = e.typeName q
  describe : d.describe p = e.describe q
  message : d.message p = e.message q
  truth : ∀ role, d.asBool role p = e.asBool role q
  integer : ∀ role, d.asInt role p = e.asInt role q
  elements : Agree (fun _ => True) (List.Forall₂ (Alike q)) (d.elements p) (e.elements q)
  member : ∀ name, AlikeAnswers q (d.member p name) (e.member q name)
  query : ∀ (a : Analysis) (k : Query), AlikeAnswers q (a.queryType k d p) (a.queryType k e q)
  unary : ∀ op, AlikeAnswers q (d.unary p op) (e.unary q op)
  same : ∀ {w v}, Since p q w v → d.same p w = e.same q v
  binary : ∀ op {w v}, Since p q w v →
    AlikeAnswers q (Draft.binary p op d w) (Draft.binary q op e v)
  index : ∀ {w v}, Since p q w v → AlikeAnswers q (d.index p w) (e.index q v)
  newKey : ∀ {given given' : Array (Draft × Draft)},
    List.Forall₂ (fun x y => Since p q x.1 y.1 ∧ Since p q x.2 y.2) given.toList given'.toList →
      d.ensureNewKey given p = e.ensureNewKey given' q

variable {p q : Pool} {d e : Draft} {t : Tree Holding}

/-- A draft and what it may be in a later pool mean one tree. -/
theorem Since.exists_means (h : Since p q d e) (hsound : p.Sound) (hlater : p.Leads q) :
    ∃ t : Tree Holding, Means p d t ∧ Means q e t := by
  cases h with
  | kept hmade =>
    obtain ⟨t, ht⟩ := hmade.exists_means hsound
    exact ⟨t, ht, ht.mono hlater.keeps⟩
  | @pooled a s s' hmade hs hrun hq =>
    obtain ⟨t, ht⟩ := hmade.exists_means hsound
    obtain ⟨b, s'', hrun', -, hb, -⟩ := ht.intern s hs.keeps (hs.sound hsound)
    cases hrun.symm.trans hrun'
    exact ⟨t, ht, hb.mono hq.keeps⟩

/-- Entries and what they may be in a later pool mean the same entries. -/
theorem exists_entries (hsound : p.Sound) (hlater : p.Leads q) {xs ys : List (Draft × Draft)}
    (h : List.Forall₂ (fun x y => Since p q x.1 y.1 ∧ Since p q x.2 y.2) xs ys) :
    ∃ ts : List (Tree Holding × Tree Holding),
      List.Forall₂ (fun x t => Means p x.1 t.1 ∧ Means p x.2 t.2) xs ts ∧
        List.Forall₂ (fun y t => Means q y.1 t.1 ∧ Means q y.2 t.2) ys ts := by
  induction h with
  | nil => exact ⟨[], .nil, .nil⟩
  | cons hxy _ ih =>
    obtain ⟨k, hk, hk'⟩ := hxy.1.exists_means hsound hlater
    obtain ⟨v, hv, hv'⟩ := hxy.2.exists_means hsound hlater
    obtain ⟨ts, hxs, hys⟩ := ih
    exact ⟨(k, v) :: ts, .cons ⟨hk, hv⟩ hxs, .cons ⟨hk', hv'⟩ hys⟩

/-- Whether a draft is null depends on the scalar that it is. -/
theorem isNull_eq_decide (d : Draft) : d.isNull = decide (d.scalar? = some .null) := by
  rcases d with ⟨(_ | b | i | x) | id⟩ | layer <;> rfl

/-- Drafts that mean one tree, the one in a pool and the other one in a later pool, are
interchangeable: the tree alone decides the answers. -/
theorem Means.interchangeable (hsound : p.Sound) (hlater : p.Leads q) (hd : Means p d t)
    (he : Means q e t) : Interchangeable p q d e := by
  have hkeeps := hlater.keeps
  have hsound' := hlater.sound hsound
  have halike : ∀ {x y : Draft} {u : Tree Holding}, Means p x u → Means q y u → Alike q x y :=
    fun hx hy => ((hx.mono hkeeps).alike_iff hsound' hy).2 rfl
  -- answers are never compared with each other: each goes together with that of the tree
  have hanswers : ∀ {x y : Except Fault Draft} {z : Except Fault (Tree Holding)},
      Agree Fault.Benign (Means p) x z → Agree Fault.Benign (Means q) y z → AlikeAnswers q x y := by
    intro x y z hx hy
    refine (hx.through hy).imp (fun _ _ => trivial) ?_
    rintro b c ⟨u, hb, hc⟩
    exact halike hb hc
  have hscalar : d.scalar? = e.scalar? := hd.scalar?.trans he.scalar?.symm
  have hquery : ∀ (a : Analysis) k {r x}, r.Sound → Means r x t →
      Agree Fault.Benign (Means r) (a.queryType k x r)
        (TreeEnv.queryType ⟨a, "", .empty, fun _ => .ok t⟩ k t) :=
    fun a k _ _ hr hx => EnvRel.queryType_of_analysis ⟨a, "", .empty, fun _ => .ok t⟩ hr k hx
  exact
    { alike := halike hd he
      isNull := by rw [isNull_eq_decide, isNull_eq_decide, hscalar]
      typeName := hd.typeName.trans he.typeName.symm
      describe := (hd.describe hsound).trans (he.describe hsound').symm
      message := (hd.message hsound).trans (he.message hsound').symm
      truth := fun role => (hd.asBool role).eq.trans (he.asBool role).eq.symm
      integer := fun role => (hd.asInt role).eq.trans (he.asInt role).eq.symm
      elements := by
        refine (hd.elements.through he.elements).imp (fun _ _ => trivial) ?_
        rintro ds es ⟨ts, hds, hes⟩
        exact forall₂_of_right hds hes fun _ _ _ => halike
      member := fun name => hanswers (hd.member name) (he.member name)
      query := fun a k => hanswers (hquery a k hsound hd) (hquery a k hsound' he)
      unary := fun op => hanswers (hd.unary op) (he.unary op)
      -- the second operand is any draft that is alike in both pools, so it has a tree of its own
      same := by
        intro w v h
        obtain ⟨u, hw, hv⟩ := h.exists_means hsound hlater
        rw [hd.same hsound hw, he.same hsound' hv]
      binary := by
        intro op w v h
        obtain ⟨u, hw, hv⟩ := h.exists_means hsound hlater
        exact hanswers (hd.binary hsound op hw) (he.binary hsound' op hv)
      index := by
        intro w v h
        obtain ⟨u, hw, hv⟩ := h.exists_means hsound hlater
        exact hanswers (hd.index hsound hw) (he.index hsound' hv)
      newKey := by
        rintro ⟨given⟩ ⟨given'⟩ h
        obtain ⟨ts, hgiven, hgiven'⟩ := exists_entries hsound hlater h
        have hkey : d.ensureNewKey ⟨given⟩ p = t.ensureNewKey ⟨ts⟩ :=
          (hd.ensureNewKey hsound hgiven).eq
        have hkey' : e.ensureNewKey ⟨given'⟩ q = t.ensureNewKey ⟨ts⟩ :=
          (he.ensureNewKey hsound' hgiven').eq
        rw [hkey, hkey'] }

/-- A draft is pooled without a fault, and from then on the atom as which it was pooled can be put
in its place: no question tells the two apart, whatever else it is about. The draft itself has the
same answers as before too, also if the other operand or the index has been pooled. -/
theorem intern_interchangeable {s : Stock} (hs : s.pool.Reached) (hd : d.Made s.pool) :
    ∃ a s', d.intern s = .ok a s' ∧ s.pool.Leads s'.pool ∧ ∀ q, s'.pool.Leads q →
      Interchangeable s.pool q d (.atom a) ∧ Interchangeable s.pool q d d := by
  have hsound := hs.sound
  obtain ⟨t, ht⟩ := hd.exists_means hsound
  obtain ⟨a, s', hrun, -, ha, -⟩ := ht.intern s (.refl _) hsound
  have hleads := leads_intern hrun
  refine ⟨a, s', hrun, hleads, fun q hq => ?_⟩
  have hlater : s.pool.Leads q := hleads.trans hq
  exact ⟨ht.interchangeable hsound hlater (ha.mono hq.keeps),
    ht.interchangeable hsound hlater (ht.mono hlater.keeps)⟩

/-- A list that is pooled after the text in it. -/
theorem intern_interchangeable_list :
    ∃ s', (Draft.list #[.int 1, .text "one"]).intern {} = .ok (.ref ⟨1⟩) s' ∧
      Interchangeable {} s'.pool (.list #[.int 1, .text "one"]) (.pooled ⟨1⟩) := by
  have hint : (Draft.int 1).Made {} := .atom trivial
  have hlist : (Draft.list #[.int 1, .text "one"]).Made {} :=
    .list (List.forall_mem_cons.2 ⟨hint, List.forall_mem_singleton.2 (.text "one")⟩)
  obtain ⟨a, s', hrun, -, h⟩ := intern_interchangeable (s := {}) .refl hlist
  have ha : ((Draft.list #[.int 1, .text "one"]).intern.outcome {}).1 = .ok (.ref ⟨1⟩) := rfl
  rw [Work.outcome, hrun] at ha
  obtain rfl := Except.ok.inj ha
  exact ⟨s', hrun, (h _ .refl).1⟩

end Draft

end ConstPool
