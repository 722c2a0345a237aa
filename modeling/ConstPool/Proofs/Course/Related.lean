import ConstPool.Proofs.Conduct.Resolve
import ConstPool.Proofs.Course.Basic
import ConstPool.Proofs.Interpretation.Related

/-!
# A body goes as the machine runs

The machine counts down and the course counts up: the steps that are taken and those that are left
are the budget together. As long as this is so, a part of a body may go in one way only, which is
what the machine does; and if every request has an answer, the part does go. The steps that are left
bound the rounds of a loop, so the loop of the machine never stops for lack of rounds, but for lack
of steps.

All this is so if the counter of the course never overflows, that is, if the step which is one too
many still has a number of 64 bits.

* `Course.Tied`: a machine and a clock at the same point of a body.
* `Course.Matches`: a part of a body goes as the machine runs it.
* `Course.Counts.iff`: where a range that counts on comes to its end.
* `Env.related`: the steps of a body.
-/

namespace ConstPool

/-- An answer agrees with what was computed: it has the same outcome and leaves the same stock,
which is in order, and so are the bodies that were run. -/
structure Answer.Agrees (I : Stock → Prop) (P : Ended → Prop) (x : Answer) (y : Outcome × Stock) :
    Prop where
  eq : y = (x.outcome, x.stock)
  holds : I x.stock
  ended : ∀ e ∈ x.ended, P e

/-- The answers of a request on a stock that is in order agree with a computation. -/
def Answering.Agrees (I : Stock → Prop) (P : Ended → Prop) (answering : Answering)
    (request : Request ValueId Atom → Work ValueId) : Prop :=
  ∀ r s x, I s → answering r s x → x.Agrees I P ((request r).outcome s)

/-- Every request on a stock that is in order has an answer. -/
def Answering.Total (I : Stock → Prop) (answering : Answering) : Prop :=
  ∀ r s, I s → ∃ x, answering r s x

namespace Course

variable {I : Stock → Prop} {P : Ended → Prop} {budget : Nat} {total : Prop} {β γ : Type}

/-! ### Machines and clocks -/

/-- A machine and a clock at the same point of a body. The stock is in order, and so are the bodies
that have come to their end. -/
structure Tied (I : Stock → Prop) (P : Ended → Prop) (budget : Nat) (m : Machine Stock Draft)
    (c : Clock) : Prop where
  stock : m.stock = c.stock
  scopes : ScopesRel Eq m.scopes c.scopes
  time : c.ticks + m.left = budget
  holds : I c.stock
  ended : ∀ e ∈ c.ended, P e

/-- A machine and a clock after a fault. The last step may have been one too many. -/
structure Over (I : Stock → Prop) (P : Ended → Prop) (budget : Nat) (m : Machine Stock Draft)
    (c : Clock) : Prop where
  stock : m.stock = c.stock
  time : c.ticks ≤ budget + 1
  holds : I c.stock
  ended : ∀ e ∈ c.ended, P e

/-- A machine and a clock at the same point of a body, if a fault ends it there. -/
theorem Tied.over {m : Machine Stock Draft} {c : Clock} (h : Tied I P budget m c) :
    Over I P budget m c where
  stock := h.stock
  time := by
    have := h.time
    omega
  holds := h.holds
  ended := h.ended

/-- How a part of a body ends on the machine and on the clock, if at most `left` steps were left. -/
inductive Ends (I : Stock → Prop) (P : Ended → Prop) (budget left : Nat) (V : Nat → β → γ → Prop) :
    EStateM.Result (Stop Draft) (Machine Stock Draft) β → EStateM.Result (Stop Draft) Clock γ → Prop
  | ok {b : β} {g : γ} {m : Machine Stock Draft} {c : Clock} : Tied I P budget m c →
    m.left ≤ left → V m.left b g → Ends I P budget left V (.ok b m) (.ok g c)
  | stop {s : Stop Draft} {m : Machine Stock Draft} {c : Clock} : Tied I P budget m c →
    m.left ≤ left → Ends I P budget left V (.error s m) (.error s c)
  | fault {f : Fault} {m : Machine Stock Draft} {c : Clock} : Over I P budget m c →
    Ends I P budget left V (.error (.fault f) m) (.error (.fault f) c)

/-- From every point of a body at which at most `left` steps are left, the course goes as the
machine does, and if all requests have answers it does go. -/
def Matches (I : Stock → Prop) (P : Ended → Prop) (budget : Nat) (total : Prop) (left : Nat)
    (V : Nat → β → γ → Prop) (x : Run β) (y : Course γ) : Prop :=
  ∀ m c, Tied I P budget m c → m.left ≤ left →
    (total → ∃ r, y c r) ∧ ∀ r, y c r → Ends I P budget left V (x m) r

section Combinators

variable {left : Nat} {V : Nat → β → γ → Prop} {x : Run β} {y : Course γ}

/-- Fewer steps were left, and less is said about the results. -/
theorem Ends.imp {left' : Nat} {W : Nat → β → γ → Prop}
    {p : EStateM.Result (Stop Draft) (Machine Stock Draft) β}
    {r : EStateM.Result (Stop Draft) Clock γ} (h : Ends I P budget left V p r)
    (hleft : left ≤ left') (hV : ∀ n b g, V n b g → W n b g) : Ends I P budget left' W p r := by
  cases h with
  | ok htied hle hv => exact .ok htied (hle.trans hleft) (hV _ _ _ hv)
  | stop htied hle => exact .stop htied (hle.trans hleft)
  | fault hover => exact .fault hover

namespace Matches

/-- Less is known of the results. -/
theorem imp {W : Nat → β → γ → Prop} (h : Matches I P budget total left V x y)
    (hV : ∀ n b g, V n b g → W n b g) : Matches I P budget total left W x y :=
  fun m c htied hle => ⟨(h m c htied hle).1, fun r hr => ((h m c htied hle).2 r hr).imp le_rfl hV⟩

/-- Values that correspond, however many steps are left. -/
theorem pure {b : β} {g : γ} (h : ∀ n, n ≤ left → V n b g) :
    Matches I P budget total left V (Pure.pure b) (Pure.pure g) := by
  intro m c htied hle
  refine ⟨fun _ => ⟨_, rfl⟩, ?_⟩
  rintro r rfl
  exact .ok htied hle (h _ hle)

/-- In sequence, the second part starts with the steps that the first one leaves. -/
theorem bind {β' γ' : Type} {W : Nat → β' → γ' → Prop} {f : β → Run β'} {g : γ → Course γ'}
    (h : Matches I P budget total left V x y)
    (hnext : ∀ n b v, n ≤ left → V n b v → Matches I P budget total n W (f b) (g v)) :
    Matches I P budget total left W (x >>= f) (y >>= g) := by
  intro m c htied hle
  obtain ⟨hgoes, hends⟩ := h m c htied hle
  -- first that the course has a way to go on, then that every way agrees with the machine
  refine ⟨fun htotal => ?_, fun r hr => ?_⟩
  · obtain ⟨r, hr⟩ := hgoes htotal
    have hfirst := hends r hr
    generalize x m = p at hfirst
    cases hfirst with
    | ok htied' hle' hv =>
      obtain ⟨r', hr'⟩ := (hnext _ _ _ hle' hv _ _ htied' le_rfl).1 htotal
      exact ⟨r', .next hr hr'⟩
    | stop _ _ => exact ⟨_, .stop hr⟩
    | fault _ => exact ⟨_, .stop hr⟩
  · show Ends I P budget left W (EStateM.bind x f m) r
    unfold EStateM.bind
    cases hr with
    | next hr hr' =>
      have hfirst := hends _ hr
      generalize x m = p at hfirst ⊢
      cases hfirst with
      | ok htied' hle' hv =>
        exact ((hnext _ _ _ hle' hv _ _ htied' le_rfl).2 _ hr').imp hle' fun _ _ _ h => h
    | stop hr =>
      have hfirst := hends _ hr
      generalize x m = p at hfirst ⊢
      cases hfirst with
      | stop htied' hle' => exact .stop htied' hle'
      | fault hover => exact .fault hover

/-- A part that stops. -/
theorem stop (s : Stop Draft) :
    Matches I P budget total left V (throw s) (Course.stop s) := by
  intro m c htied hle
  refine ⟨fun _ => ⟨_, rfl⟩, ?_⟩
  rintro r rfl
  exact .stop htied hle

/-- A computation on the stock. -/
theorem work {w : Work β} (h : Work.Conforms (.keeping I) w) :
    Matches I P budget total left (fun _ => Eq) (Eval.onStock w) (Course.work w) := by
  rintro ⟨stock, scopes, steps⟩ c htied hle
  refine ⟨fun _ => ⟨_, rfl⟩, ?_⟩
  rintro r rfl
  obtain rfl : stock = c.stock := htied.stock
  have hleaves := h c.stock htied.holds
  simp only [Eval.onStock]
  generalize w c.stock = p at hleaves ⊢
  cases hleaves with
  | ok hs => exact .ok ⟨rfl, htied.scopes, htied.time, hs, htied.ended⟩ hle rfl
  | error hs => exact .fault { htied.over with stock := rfl, holds := hs }

/-- Reading the pool changes nothing. -/
theorem read (question : Pool → Except Fault β) :
    Matches I P budget total left (fun _ => Eq) (Eval.ask question)
      (Course.work (Work.askPool question)) := by
  rw [Eval.ask_eq_onStock]
  refine work fun s hs => ?_
  unfold Work.askPool
  cases question s.pool with
  | ok b => exact .ok hs
  | error f => exact .error hs trivial

/-- A question about drafts, which cannot be opened forever. -/
theorem ask (hwf : ∀ s, I s → WellFounded (Draft.PartIn s.pool))
    (question : Pool → Except Fault β) :
    Matches I P budget total left (fun _ => Eq) (Eval.ask question) (Course.ask question) := by
  intro m c htied hle
  obtain ⟨hgoes, hends⟩ := read question m c htied hle
  refine ⟨fun htotal => ?_, fun r hr => hends r hr.2⟩
  obtain ⟨r, hr⟩ := hgoes htotal
  exact ⟨r, hwf _ htied.holds, hr⟩

/-- A result that is known. -/
theorem ofExcept (p : Except Fault β) :
    Matches I P budget total left (fun _ => Eq) (Eval.ofExcept p)
      (Course.work (Work.ofExcept p)) := by
  have heq : (Eval.ofExcept p : Run β) = Eval.onStock (Work.ofExcept p) := by
    funext ⟨stock, scopes, steps⟩
    cases p <;> rfl
  rw [heq]
  refine work ?_
  cases p with
  | ok b => exact .pure b
  | error f => exact .throw trivial

/-- A step is taken, or the body stops. -/
theorem tick (hbudget : budget + 1 < UInt64.size) (exhausted : Fault) :
    Matches I P budget total left (fun n _ _ => n < left) (Eval.spend exhausted 1)
      (Course.tick exhausted budget) := by
  intro m c htied hle
  have htime := htied.time
  have hcounter : (counter (c.ticks + 1)).toNat = c.ticks + 1 := toNat_counter (by omega)
  refine ⟨fun _ => ?_, fun r hr => ?_⟩
  · by_cases hlast : (counter (c.ticks + 1)).toNat ≤ budget
    · exact ⟨_, .within hlast⟩
    · exact ⟨_, .beyond (Nat.lt_of_not_le hlast)⟩
  · unfold Eval.spend
    cases hr with
    | within hlast =>
      rw [if_pos (by omega)]
      refine .ok ⟨htied.stock, htied.scopes, ?_, htied.holds, htied.ended⟩ ?_ ?_ <;>
        (dsimp only; omega)
    | beyond hlast =>
      rw [if_neg (by omega)]
      refine .fault ⟨htied.stock, ?_, htied.holds, htied.ended⟩
      dsimp only
      omega

/-- What comes next depends on the machine and on the clock. -/
theorem get_bind {f : Machine Stock Draft → Run β} {g : Clock → Course γ}
    (h : ∀ m c, Tied I P budget m c → m.left ≤ left →
      Matches I P budget total left V (f m) (g c)) :
    Matches I P budget total left V (get >>= f) (fun c => g c c) :=
  fun m c htied hle => h m c htied hle m c htied hle

/-! ### Scopes -/

/-- A part in a scope of its own. -/
theorem inScope {scope scope' : Dict String Draft} (hscope : DictRel Eq scope scope')
    (h : Matches I P budget total left V x y) :
    Matches I P budget total left V (Eval.inScope scope x) (Course.inScope scope' y) := by
  intro m c htied hle
  have hinner : Tied I P budget { m with scopes := scope :: m.scopes }
      { c with scopes := scope' :: c.scopes } :=
    { htied with scopes := .cons hscope htied.scopes }
  obtain ⟨hgoes, hends⟩ := h _ _ hinner hle
  have hclose : ∀ {m' : Machine Stock Draft} {c' : Clock}, Tied I P budget m' c' →
      Tied I P budget { m' with scopes := m'.scopes.tail } { c' with scopes := c'.scopes.tail } :=
    fun htied' => { htied' with scopes := ScopesRel.tail htied'.scopes }
  refine ⟨fun htotal => ?_, fun r hr => ?_⟩
  · obtain ⟨r, hr⟩ := hgoes htotal
    cases r with
    | ok b d => exact ⟨_, .ok hr⟩
    | error s d => exact ⟨_, .stop hr⟩
  · unfold Eval.inScope
    cases hr with
    | ok hr =>
      have hpart := hends _ hr
      generalize x _ = p at hpart ⊢
      cases hpart with
      | ok htied' hle' hv => exact .ok (hclose htied') hle' hv
    | stop hr =>
      have hpart := hends _ hr
      generalize x _ = p at hpart ⊢
      cases hpart with
      | stop htied' hle' => exact .stop (hclose htied') hle'
      | fault hover => exact .fault ⟨hover.stock, hover.time, hover.holds, hover.ended⟩

/-- A local is declared. -/
theorem declare (name : String) (d : Draft) :
    Matches I P budget total left (fun _ _ _ => True) (Eval.declare name d)
      (Course.declare name d) := by
  intro m c htied hle
  refine ⟨fun _ => ⟨_, rfl⟩, ?_⟩
  rintro r rfl
  exact .ok { htied with scopes := htied.scopes.declare rfl } hle trivial

/-- A local gets a new value. -/
theorem assign (name : String) (d : Draft) :
    Matches I P budget total left (fun _ _ _ => True)
      (Eval.assign (.unresolved name .undeclaredAssignment) name d) (Course.assign name d) := by
  intro m c htied hle
  refine ⟨fun _ => ⟨_, rfl⟩, ?_⟩
  rintro r rfl
  have hassign := htied.scopes.assign? name (rfl : d = d)
  unfold Eval.assign
  generalize m.scopes.assign? name d = a at hassign ⊢
  generalize c.scopes.assign? name d = b at hassign ⊢
  cases hassign with
  | some hscopes => exact .ok { htied with scopes := hscopes } hle trivial
  | none => exact .fault htied.over

/-! ### Loops -/

/-- One round of a loop. -/
theorem round {scope scope' : Dict String Draft} (hscope : DictRel Eq scope scope')
    {body : Run Unit} {body' : Course Unit}
    (h : Matches I P budget total left (fun _ _ _ => True) body body') :
    Matches I P budget total left (fun _ b c => b = c) (Eval.round scope body)
      (Course.round scope' body') := by
  intro m c htied hle
  obtain ⟨hgoes, hends⟩ := h.inScope hscope m c htied hle
  refine ⟨fun htotal => ?_, fun r hr => ?_⟩
  · obtain ⟨r, hr⟩ := hgoes htotal
    rcases r with ⟨⟨⟩, d⟩ | ⟨v | _ | _ | f, d⟩
    · exact ⟨_, .ok hr⟩
    · exact ⟨_, .result hr⟩
    · exact ⟨_, .leaveLoop hr⟩
    · exact ⟨_, .nextRound hr⟩
    · exact ⟨_, .fault hr⟩
  · unfold Eval.round
    -- The five ends of a round are those of the part that runs in it.
    cases hr with
    | ok hr =>
      have hpart := hends _ hr
      generalize Eval.inScope scope body m = p at hpart ⊢
      cases hpart with
      | ok htied' hle' _ => exact .ok htied' hle' rfl
    | nextRound hr =>
      have hpart := hends _ hr
      generalize Eval.inScope scope body m = p at hpart ⊢
      cases hpart with
      | stop htied' hle' => exact .ok htied' hle' rfl
    | leaveLoop hr =>
      have hpart := hends _ hr
      generalize Eval.inScope scope body m = p at hpart ⊢
      cases hpart with
      | stop htied' hle' => exact .ok htied' hle' rfl
    | result hr =>
      have hpart := hends _ hr
      generalize Eval.inScope scope body m = p at hpart ⊢
      cases hpart with
      | stop htied' hle' => exact .stop htied' hle'
    | fault hr =>
      have hpart := hends _ hr
      generalize Eval.inScope scope body m = p at hpart ⊢
      cases hpart with
      | stop htied' hle' => exact .stop htied' hle'
      | fault hover => exact .fault hover

end Matches

/-- A loop takes a step and tests its condition, and then a round is followed by the loop. -/
theorem loop_eq (tick : Course Unit) (test : Course Bool) (body : Course Unit) :
    loop tick test body = (do
      tick
      if ← test then
        if ← round .empty body then loop tick test body
        else pure ()
      else pure ()) := by
  funext c r
  -- each rule of a loop is one way through this program
  refine propext ⟨fun h => ?_, fun h => ?_⟩
  · cases h with
    | exhausted h => exact .stop h
    | testStops h h' => exact .next h (.stop h')
    | ends h h' => exact .next h (.next h' rfl)
    | roundStops h h' h'' => exact .next h (.next h' (.stop h''))
    | leaves h h' h'' => exact .next h (.next h' (.next h'' rfl))
    | again h h' h'' hrest => exact .next h (.next h' (.next h'' hrest))
  · cases h with
    | stop h => exact .exhausted h
    | next h hrest =>
      cases hrest with
      | stop h' => exact .testStops h h'
      | @next b _ _ h' hrest =>
        cases b
        · cases hrest
          exact .ends h h'
        · cases hrest with
          | stop h'' => exact .roundStops h h' h''
          | @next b _ _ h'' hrest =>
            cases b
            · cases hrest
              exact .leaves h h' h''
            · exact .again h h' h'' hrest

/-- A loop without a bound goes as one whose rounds are bounded by the steps that are left: a round
takes a step, so the steps run out first. -/
theorem Matches.loop (hbudget : budget + 1 < UInt64.size) (exhausted : Fault) {test : Run Bool}
    {test' : Course Bool} {body : Run Unit}
    {body' : Course Unit}
    (htest : ∀ n ≤ left, Matches I P budget total n (fun _ b c => b = c) test test')
    (hbody : ∀ n ≤ left, Matches I P budget total n (fun _ _ _ => True) body body')
    {rounds : Nat} (hrounds : left ≤ rounds) :
    Matches I P budget total left (fun _ _ _ => True) (Eval.loop exhausted test body rounds)
      (Course.loop (Course.tick exhausted budget) test' body') := by
  induction rounds generalizing left with
  | zero =>
    intro m c htied hle
    have htime := htied.time
    have hcounter : (counter (c.ticks + 1)).toNat = c.ticks + 1 := toNat_counter (by omega)
    have hbeyond : budget < (counter (c.ticks + 1)).toNat := by omega
    refine ⟨fun _ => ⟨_, .exhausted (.beyond hbeyond)⟩, fun r hr => ?_⟩
    rw [loop_eq] at hr
    -- No step is left, so the first one is beyond the budget.
    cases hr with
    | next h _ =>
      cases h with
      | within hwithin => omega
    | stop h =>
      cases h with
      | beyond _ =>
        refine .fault ⟨htied.stock, ?_, htied.holds, htied.ended⟩
        dsimp only
        omega
  | succ rounds ih =>
    rw [loop_eq]
    refine (Matches.tick hbudget exhausted).bind fun n₁ _ _ h₁ hlt => ?_
    refine (htest n₁ h₁).bind fun n₂ b _ h₂ hb => ?_
    subst hb
    cases b
    · exact .pure fun _ _ => trivial
    · refine ((hbody n₂ (h₂.trans h₁)).round .empty).bind fun n₃ b _ h₃ hb => ?_
      subst hb
      cases b
      · exact .pure fun _ _ => trivial
      · have hle : n₃ ≤ left := h₃.trans (h₂.trans h₁)
        exact ih (fun n hn => htest n (hn.trans hle)) (fun n hn => hbody n (hn.trans hle))
          (by omega)

end Combinators

/-! ### Ranges -/

/-- The integers from `n` on, so many as there are. -/
def integers (n : Int64) (count : Nat) : Array Draft :=
  (Array.range count).map fun (i : Nat) => .int (.ofInt (n.toInt + i))

/-- The first of the integers, and those from the next one on. -/
theorem append_integers_succ (counted : Array Draft) {n n' : Int64} (h : n'.toInt = n.toInt + 1)
    (count : Nat) :
    counted ++ integers n (count + 1) = counted.push (.int n) ++ integers n' count := by
  have hhead : Int64.ofInt (n.toInt + (0 : Nat)) = n := by simp
  have htail : ∀ i : Nat, n.toInt + ((i + 1 : Nat) : Int) = n'.toInt + i := by
    intro i
    omega
  apply Array.ext'
  simp only [integers, Array.toList_append, Array.toList_push, Array.toList_map, Array.toList_range,
    List.range_succ_eq_map, List.map_cons, List.map_map, List.append_assoc, List.singleton_append,
    Function.comp_def, Nat.succ_eq_add_one, hhead, htail]

namespace Counts

variable {exhausted : Fault} {stop n n' : Int64} {counted : Array Draft} {c : Clock}
  {r : EStateM.Result (Stop Draft) Clock Draft}

/-- A range that has come to its end. -/
theorem iff_done (hend : ¬ n.toInt < stop.toInt) :
    Counts (Course.tick exhausted budget) stop n counted c r ↔ r = .ok (.list counted) c := by
  constructor
  · intro h
    cases h with
    | done _ => rfl
    | exhausted hlt _ => exact absurd hlt hend
    | next hlt _ _ _ => exact absurd hlt hend
  · rintro rfl
    exact .done hend

/-- Before the end of a range there is a next integer: it is at most the end, so it fits. -/
theorem toInt_ofInt_succ (hlt : n.toInt < stop.toInt) :
    (Int64.ofInt (n.toInt + 1)).toInt = n.toInt + 1 := by
  have hle := n.le_toInt
  have hend := stop.toInt_lt
  exact Int64.toInt_ofInt_of_le (by omega) (by omega)

/-- Where there is a step left, a range counts on from the next integer. -/
theorem iff_next (hlt : n.toInt < stop.toInt)
    (hwithin : (counter (c.ticks + 1)).toNat ≤ budget)
    (hn' : n'.toInt = n.toInt + 1) :
    Counts (Course.tick exhausted budget) stop n counted c r ↔
      Counts (Course.tick exhausted budget) stop n' (counted.push (.int n))
        { c with ticks := c.ticks + 1 } r := by
  constructor
  · intro h
    cases h with
    | done hend => exact absurd hlt hend
    | exhausted _ htick =>
      cases htick with
      | beyond hbeyond => omega
    | next _ htick hn'' h =>
      cases htick
      rwa [← Int64.toInt_inj.1 (hn''.trans hn'.symm)]
  · exact .next hlt (.within hwithin) hn'

/-- Where there is no step left, a range ends before it comes to its end. -/
theorem iff_exhausted (hlt : n.toInt < stop.toInt)
    (hbeyond : budget < (counter (c.ticks + 1)).toNat) :
    Counts (Course.tick exhausted budget) stop n counted c r ↔
      r = .error (.fault exhausted) { c with ticks := c.ticks + 1 } := by
  constructor
  · intro h
    cases h with
    | done hend => exact absurd hlt hend
    | exhausted _ htick =>
      cases htick
      rfl
    | next _ htick _ _ =>
      cases htick with
      | within hwithin => omega
  · rintro rfl
    exact .exhausted hlt (.beyond hbeyond)

/-- A range counts on to its end if there is a step for each integer, and else to the step that is
one too many. It never comes to an integer after which there is none: the end of the range is one.
-/
theorem iff {count : Nat} (hbudget : budget + 1 < UInt64.size)
    (hcount : (stop.toInt - n.toInt).toNat = count) (hticks : c.ticks ≤ budget) :
    Counts (Course.tick exhausted budget) stop n counted c r ↔
      r = if c.ticks + count ≤ budget then
          .ok (.list (counted ++ integers n count)) { c with ticks := c.ticks + count }
        else .error (.fault exhausted) { c with ticks := budget + 1 } := by
  induction count generalizing c n counted with
  | zero =>
    have hnone : counted ++ integers n 0 = counted := by simp [integers]
    rw [iff_done (by omega), Nat.add_zero, if_pos hticks, hnone]
  | succ count ih =>
    have hlt : n.toInt < stop.toInt := by omega
    have hcounter : (counter (c.ticks + 1)).toNat = c.ticks + 1 := toNat_counter (by omega)
    by_cases hwithin : c.ticks + 1 ≤ budget
    · have hn' := toInt_ofInt_succ hlt
      rw [iff_next hlt (hcounter.trans_le hwithin) hn', ih (by omega) hwithin,
        append_integers_succ counted hn']
      simp only [Nat.add_assoc, Nat.add_comm 1 count]
    · have hlast : c.ticks + 1 = budget + 1 := by omega
      rw [iff_exhausted hlt (by omega), if_neg (by omega), hlast]

end Counts

/-- A range that counts on goes as one whose length is known before. -/
theorem Matches.range {left : Nat} (hbudget : budget + 1 < UInt64.size) (exhausted : Fault)
    (start stop : Int64) :
    Matches I P budget total left (fun _ => Eq)
      (do
        let count := (stop.toInt - start.toInt).toNat
        Eval.spend exhausted count
        return .list (integers start count))
      (Course.range (Course.tick exhausted budget) start stop) := by
  intro m c htied hle
  have htime := htied.time
  generalize hcount : (stop.toInt - start.toInt).toNat = count
  have hticks : c.ticks ≤ budget := by omega
  have hiff : ∀ r, Course.range (Course.tick exhausted budget) start stop c r ↔ _ := fun r =>
    Counts.iff hbudget hcount hticks
  simp only [Array.empty_append] at hiff
  refine ⟨fun _ => ⟨_, (hiff _).2 rfl⟩, fun r hr => ?_⟩
  rw [(hiff r).1 hr]
  show Ends I P budget left (fun _ => Eq) (EStateM.bind _ _ m) _
  unfold EStateM.bind Eval.spend
  by_cases hwithin : count ≤ m.left
  · rw [if_pos hwithin, if_pos (by omega)]
    refine .ok ⟨htied.stock, htied.scopes, ?_, htied.holds, htied.ended⟩ ?_ rfl <;>
      (dsimp only; omega)
  · rw [if_neg hwithin, if_neg (by omega)]
    exact .fault ⟨htied.stock, le_rfl, htied.holds, htied.ended⟩

/-! ### Requests -/

/-- A request is answered. -/
theorem Matches.request {left : Nat} {answering : Answering}
    {request : Request ValueId Atom → Work ValueId} (h : answering.Agrees I P request)
    (htotal : total → answering.Total I) (r : Request ValueId Atom) :
    Matches I P budget total left (fun _ => Eq) (Eval.onStock (request r))
      (Course.request answering r) := by
  rintro ⟨stock, scopes, steps⟩ c htied hle
  obtain rfl : stock = c.stock := htied.stock
  refine ⟨fun ht => ?_, fun p hp => ?_⟩
  · obtain ⟨⟨f | id, stock, ended⟩, hx⟩ := htotal ht r c.stock htied.holds
    · exact ⟨_, .error hx⟩
    · exact ⟨_, .ok hx⟩
  · -- what ended while the request was answered stands before what had ended already
    have hafter : ∀ {x : Answer}, answering r c.stock x → ∀ e ∈ x.ended ++ c.ended, P e :=
      fun hx e he => (List.mem_append.1 he).elim ((h r _ _ htied.holds hx).ended e) (htied.ended e)
    simp only [Eval.onStock]
    cases hp with
    | @ok id stock ended hx =>
      obtain ⟨heq, hholds, -⟩ := h r _ _ htied.holds hx
      unfold Work.outcome at heq
      generalize request r c.stock = q at heq ⊢
      cases q with
      | ok id' stock' =>
        cases heq
        exact .ok ⟨rfl, htied.scopes, htied.time, hholds, hafter hx⟩ hle rfl
      | error f stock' => cases heq
    | @error f stock ended hx =>
      obtain ⟨heq, hholds, -⟩ := h r _ _ htied.holds hx
      unfold Work.outcome at heq
      generalize request r c.stock = q at heq ⊢
      cases q with
      | ok id' stock' => cases heq
      | error f' stock' =>
        cases heq
        exact .fault ⟨rfl, htied.over.time, hholds, hafter hx⟩

/-! ### The steps of a body -/

/-- Courses and runs of the machine go together, with the steps that are left as the worlds. -/
def correlation (I : Stock → Prop) (P : Ended → Prop) (budget : Nat) (total : Prop) :
    Correlation Run Course Draft Draft where
  World := Nat
  le v w := w ≤ v
  refl _ := le_rfl
  trans h h' := h'.trans h
  stands _ := Eq
  mono _ h := h
  Runs := Matches I P budget total
  pure h := .pure h
  bind h hnext := h.bind fun n b v hle hv => hnext n b v hle hv
  imp h himp := h.imp himp

end Course

namespace Env

open Course

variable {I : Stock → Prop} {P : Ended → Prop} {total : Prop} {env : Env}
  {request : Request ValueId Atom → Work ValueId} {answering : Answering}

/-- A constant from outside is taken as a draft. -/
theorem matches_fetch {left budget : Nat} (h : answering.Agrees I P request)
    (htotal : total → answering.Total I) (r : Request ValueId Atom) :
    Matches I P budget total left (fun _ => Eq) ((env.answeredBy request).fetch r)
      (Course.fetch answering r) := by
  refine (Matches.request h htotal r).bind fun _ id _ _ heq => ?_
  subst heq
  refine (Matches.read _).bind fun _ a _ _ heq => ?_
  subst heq
  exact .pure fun _ _ => rfl

/-- The value of a name. -/
theorem matches_lookup {left budget : Nat} (h : answering.Agrees I P request)
    (htotal : total → answering.Total I) (name : String) :
    Matches I P budget total left (fun _ => Eq) ((env.answeredBy request).lookup name)
      (fun c => env.valueOf answering name c.scopes c) := by
  refine Matches.get_bind fun m c htied _ => ?_
  have hfind := htied.scopes.find? name
  unfold valueOf
  generalize m.scopes.find? name = o at hfind ⊢
  generalize c.scopes.find? name = o' at hfind ⊢
  cases hfind with
  | some heq => exact .pure fun _ _ => heq
  | none =>
    have hparams : (env.answeredBy request).params = env.params := rfl
    have hanalysis : (env.answeredBy request).analysis = env.analysis := rfl
    rw [hparams, hanalysis]
    cases env.params.get? name with
    | some atom => exact .pure fun _ _ => rfl
    | none =>
      dsimp only
      split
      · exact matches_fetch h htotal _
      · exact .stop _

/-- Questions about the same drafts have the same answers, which correspond. -/
theorem matches_ask {budget : Nat} {left : (correlation I P budget total).World} {a : Analysis}
    {β γ : Type} {q : Question Draft β} {q' : Question Draft γ}
    {V : (correlation I P budget total).World → β → γ → Prop}
    (hwf : ∀ s, I s → WellFounded (Draft.PartIn s.pool))
    (hq : q.Rel (correlation I P budget total) (fun _ => Eq) left q' V) :
    (correlation I P budget total).Runs left V (Eval.ask (q.onDrafts a))
      (Course.ask (q'.onDrafts a)) :=
  hq.of_eq (fun _ _ _ => .rfl) (fun _ _ _ h => h) (x := fun q => Eval.ask (q.onDrafts a))
    (y := fun q => Course.ask (q.onDrafts a)) fun _ => Matches.ask hwf _

/-- A body goes as the machine runs it, if its requests are answered as the machine answers them. -/
theorem related (hbudget : env.analysis.settings.stepBudget + 1 < UInt64.size)
    (hfair : (Terms.keeping I).Fair)
    (hwf : ∀ s, I s → WellFounded (Draft.PartIn s.pool))
    (h : answering.Agrees I P request) (htotal : total → answering.Total I) :
    Interpretation.Related (correlation I P env.analysis.settings.stepBudget total) (fun _ => Eq)
      (fun _ => Eq) (fun _ => Eq) (fun _ => True) (env.answeredBy request).interpretation
      (env.course answering) where
  step _ := (Matches.tick hbudget _).imp fun _ _ _ _ => trivial
  result {β γ w V d e} hd := by
    cases hd
    exact Matches.stop _
  leaveLoop := Matches.stop _
  nextRound := Matches.stop _
  fault _ := Matches.stop _
  inScope hscope h := Matches.inScope hscope h
  round hscope h := Matches.round hscope h
  loop {w test test' body body'} htest hbody := by
    intro m c htied hle
    obtain ⟨hgoes, hends⟩ := Matches.loop hbudget env.exhausted (fun n hn => htest n (hn.trans hle))
      (fun n hn => hbody n (hn.trans hle)) (le_refl m.left) m c htied le_rfl
    exact ⟨hgoes, fun r hr => (hends r hr).imp hle fun _ _ _ h => h⟩
  declare {w d e} name hd := by
    cases hd
    exact Matches.declare name d
  assign {w d e} name hd := by
    cases hd
    exact Matches.assign name d
  program := rfl
  objectTypes := rfl
  owner := rfl
  scalar _ _ := rfl
  layer _ hl := congrArg Draft.fresh hl.eq_of_parts
  isNull {w d e} hd := by
    cases hd
    rfl
  lookup _ name := matches_lookup h htotal name
  range _ start stop := Matches.range hbudget _ start stop
  ask hq := matches_ask hwf hq
  type {w t} _ := by
    show Matches I P _ total w (fun _ => Eq) (Eval.ofExcept (t.draft (env.answeredBy request)))
      (Course.work (Work.ofExcept (t.draft env)))
    rw [TypeExpr.draft_answeredBy]
    exact Matches.ofExcept _
  constant h := h
  poolType {w d e} hd := by
    cases hd
    exact Matches.work (hfair.internType d)
  pool {w d e} hd := by
    cases hd
    exact Matches.work (hfair.draft d)
  typeArgs_mono _ h := h
  args_mono _ h := h
  call {w name f is js as bs} _ his has := by
    obtain rfl := List.forall₂_eq_eq_eq ▸ his
    obtain rfl := List.forall₂_eq_eq_eq ▸ has
    exact matches_fetch h htotal _

/-! ### Bodies -/

/-- The bodies that have come to their end when one more has. -/
abbrev Joined (P : Ended → Prop) (env : Env) (e : Ended) : Prop :=
  P e ∨ e.chain = env.chain ∧ e.ticks ≤ env.analysis.settings.stepBudget + 1

section Ends

variable {m : Machine Stock Draft} {c : Clock}

/-- A body ends with a constant, which is pooled. -/
theorem settled_agrees (hfair : (Terms.keeping I).Fair)
    (h : Over I P env.analysis.settings.stepBudget m c) (d : Draft) :
    (c.settled env.chain d).Agrees I (Joined P env) (d.settle.outcome m.stock) where
  eq := by
    rw [h.stock]
    rfl
  holds := Work.conforms_keeping_iff.1 (hfair.settle d) c.stock h.holds
  ended := List.forall_mem_cons.2 ⟨.inr ⟨rfl, h.time⟩, fun e he => .inl (h.ended e he)⟩

/-- A body ends with a fault. -/
theorem failed_agrees (h : Over I P env.analysis.settings.stepBudget m c) (f : Fault) :
    (c.failed env.chain f).Agrees I (Joined P env) (.error f, m.stock) where
  eq := by
    rw [h.stock]
    rfl
  holds := h.holds
  ended := List.forall_mem_cons.2 ⟨.inr ⟨rfl, h.time⟩, fun e he => .inl (h.ended e he)⟩

end Ends

/-- A whole body goes as the machine runs it. Its steps are those of the budget and one more at
most. -/
theorem courses_agree (env : Env) (hbudget : env.analysis.settings.stepBudget + 1 < UInt64.size)
    (hfair : (Terms.keeping I).Fair)
    (hwf : ∀ s, I s → WellFounded (Draft.PartIn s.pool)) (h : answering.Agrees I P request)
    (htotal : total → answering.Total I) (body : Expr) {s : Stock} (hs : I s) :
    (total → ∃ x, env.Courses answering body s x) ∧
      ∀ x, env.Courses answering body s x →
        x.Agrees I (Joined P env) (((env.answeredBy request).run body).outcome s) := by
  have hstart : Tied I P env.analysis.settings.stepBudget
      ⟨s, [.empty], env.analysis.settings.stepBudget⟩ ⟨s, [.empty], 0, []⟩ :=
    ⟨rfl, .cons .empty .nil, Nat.zero_add _, hs, fun _ he => nomatch he⟩
  obtain ⟨hgoes, hends⟩ := Expr.related (related hbudget hfair hwf h htotal)
    env.analysis.settings.stepBudget body (fun _ _ => trivial) _ _ hstart le_rfl
  refine ⟨fun ht => ?_, ?_⟩
  · obtain ⟨r, hr⟩ := hgoes ht
    exact ⟨_, r, hr, rfl⟩
  · rintro x ⟨r, hr, rfl⟩
    have hrun := hends r hr
    rw [Expr.eval_eq] at hrun
    unfold Work.outcome Env.run Env.finish
    rw [show (env.answeredBy request).analysis = env.analysis from rfl]
    generalize body.eval (env.answeredBy request) _ = p at hrun ⊢
    cases hrun with
    | ok htied _ heq =>
      cases heq
      exact settled_agrees hfair htied.over _
    | @stop stop m c htied _ =>
      cases stop with
      | result d => exact settled_agrees hfair htied.over d
      | leaveLoop => exact failed_agrees htied.over _
      | nextRound => exact failed_agrees htied.over _
      | fault f => exact failed_agrees htied.over f
    | fault hover => exact failed_agrees hover _

end Env

end ConstPool
