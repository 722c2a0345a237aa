import ConstPool.Parallel.Wave
import ConstPool.Proofs.Parallel.Account
import ConstPool.Proofs.Parallel.Threads
import Mathlib.Logic.Hydra

/-!
# Threads beside each other

Several threads take their actions one at a time, in whatever order. Each of them is sure of what it
is sure of alone: the others only add to the stock, and leave it in order. So it stays on its way in
every step, whoever takes it, and the account of what all of them have done is kept.

They come to an end in every order. A task is a tree, of which every action leaves a part, so the
tasks cannot go on for ever; and as long as there is one that has not ended, one of them can go on.
If a thread waits, it waits for what another thread computes. If this one waits too, then for
something to which what it computes leads, and nothing in a program leads on for ever.

* `Thread`: a task, and what is known of it.
* `Scheduled`: threads that are on their way, and the account of what they have done.
* `Scheduled.step`, `Scheduled.steps`: they stay on their way in any order.
* `Scheduled.ends`: what is known in the end.
* `Scheduled.exists_step`: they never wait for each other.
* `Scheduled.exists_ends`: they come to an end.
-/

namespace ConstPool

open Relation

/-- A task, the stock after its last action, what it has done, and what is wanted of it. -/
structure Thread (α : Type) where
  task : Task α
  known : Stock
  deeds : List Deed
  wanted : Stock → List Deed → α → Prop

/-- What threads have done. -/
def Thread.allDeeds {α : Type} (threads : List (Thread α)) : List Deed :=
  threads.flatMap Thread.deeds

/-- What threads compute. -/
def Thread.allRunning {α : Type} (threads : List (Thread α)) : List Inquiry :=
  threads.flatMap fun th => Deed.running th.deeds

/-- A thread is on its way to what is wanted, now that the stock is `s`. -/
structure Thread.OnWay {α : Type} (a : Analysis) (reply : Inquiry → Except Fault (Tree Scalar))
    (s : Stock) (th : Thread α) : Prop where
  later : th.known.Later a s
  meets : th.task.Meets a reply th.wanted th.known th.deeds

/-- Threads that have made the stock `s` from `s₀`. -/
structure Scheduled {α : Type} (a : Analysis) (reply : Inquiry → Except Fault (Tree Scalar))
    (s₀ : Stock) (threads : List (Thread α)) (s : Stock) : Prop where
  onWay : ∀ th ∈ threads, th.OnWay a reply s
  account : s₀.Account a reply (Thread.allDeeds threads) (Thread.allRunning threads) s

namespace Scheduled

variable {α : Type} {a : Analysis} {reply : Inquiry → Except Fault (Tree Scalar)} {s₀ s s' : Stock}
  {threads : List (Thread α)}

/-! ### One action -/

/-- One of the threads has taken an action. -/
theorem act {before rest : List (Thread α)} {th : Thread α} {task : Task α} {more : List Deed}
    (h : Scheduled a reply s₀ (before ++ th :: rest) s) (hdoes : s.Does a reply more s')
    (hfits : Deed.Fits th.deeds more)
    (hmeets : task.Meets a reply th.wanted s' (th.deeds ++ more)) :
    Scheduled a reply s₀ (before ++ ⟨task, s', th.deeds ++ more, th.wanted⟩ :: rest) s' where
  onWay := by
    have hothers : ∀ th' ∈ before ++ th :: rest, th'.known.Later a s' := fun th' hin =>
      (h.onWay th' hin).later.trans (hdoes.later h.account.good)
    simp only [List.mem_append, List.mem_cons] at hothers ⊢
    rintro th' (hin | rfl | hin)
    · exact ⟨hothers th' (.inl hin), (h.onWay th' (by simp [hin])).meets⟩
    · exact ⟨.refl s', hmeets⟩
    · exact ⟨hothers th' (.inr (.inr hin)), (h.onWay th' (by simp [hin])).meets⟩
  account := by
    -- the account does not depend on the order, so the thread may stand before all others
    have hfirst : ∀ th' : Thread α, (before ++ th' :: rest).Perm (th' :: (before ++ rest)) :=
      fun _ => List.perm_middle
    have hbefore := h.account.perm ((hfirst th).flatMap_right _) ((hfirst th).flatMap_right _)
    have hafter := hbefore.does hdoes hfits
    refine hafter.perm ?_ ?_
    · refine .trans ?_ ((hfirst _).flatMap_right _).symm
      rw [List.flatMap_cons, List.flatMap_cons, List.append_assoc, List.append_assoc]
      exact List.perm_append_comm.append_left _
    · refine .trans ?_ ((hfirst _).flatMap_right _).symm
      have hrunning : Deed.running (th.deeds ++ more) =
          more.foldl Deed.next (Deed.running th.deeds) := List.foldl_append
      rw [List.flatMap_cons, hrunning]
      exact .refl _

/-- Whoever takes an action, the threads stay on their way. -/
theorem step {c c' : List (Task α) × Stock} (h : Scheduled a reply s₀ threads c.2)
    (htasks : c.1 = threads.map Thread.task) (hstep : Task.Step c c') :
    ∃ threads', c'.1 = threads'.map Thread.task ∧
      threads'.map Thread.wanted = threads.map Thread.wanted ∧
        Scheduled a reply s₀ threads' c'.2 := by
  cases hstep with
  | @act before rest after next s s' hs' =>
    obtain ⟨before, rest', rfl, rfl, hrest⟩ := List.map_eq_append_iff.1 htasks.symm
    obtain ⟨th, rest, rfl, htask, rfl⟩ := List.map_eq_cons_iff.1 hrest
    have honWay := h.onWay th (List.mem_append_right _ (List.mem_cons_self ..))
    have hmeets := honWay.meets
    rw [htask] at hmeets
    obtain ⟨more, hdoes, hfits, hnext⟩ := (hmeets s honWay.later h.account.good).2 s' hs'
    refine ⟨_, ?_, ?_, h.act hdoes hfits hnext⟩
    · rw [List.map_append, List.map_cons]
    · rw [List.map_append, List.map_append, List.map_cons, List.map_cons]

/-- The threads stay on their way in any order of their actions. -/
theorem steps {c c' : List (Task α) × Stock} (h : Scheduled a reply s₀ threads c.2)
    (htasks : c.1 = threads.map Thread.task) (hsteps : ReflTransGen Task.Step c c') :
    ∃ threads', c'.1 = threads'.map Thread.task ∧
      threads'.map Thread.wanted = threads.map Thread.wanted ∧
        Scheduled a reply s₀ threads' c'.2 := by
  induction hsteps with
  | refl => exact ⟨threads, htasks, rfl, h⟩
  | tail _ hstep ih =>
    obtain ⟨threads', htasks', hwanted, h'⟩ := ih
    obtain ⟨threads'', htasks'', hwanted', h''⟩ := h'.step htasks' hstep
    exact ⟨threads'', htasks'', hwanted'.trans hwanted, h''⟩

/-! ### The end -/

/-- What was wanted of threads that have come to their results: there are deeds, for each thread its
own, with which it is so, and they add up to what the stock has become. -/
theorem ends {results : List α} (h : Scheduled a reply s₀ threads s)
    (htasks : results.map Task.done = threads.map Thread.task) :
    List.Forall₂ (fun th b => th.known.Later a s ∧ th.wanted th.known th.deeds b) threads results := by
  have honWay := h.onWay
  clear h
  induction threads generalizing results with
  | nil =>
    cases List.map_eq_nil_iff.1 htasks
    exact .nil
  | cons th rest ih =>
    obtain ⟨b, results, rfl, hdone, htasks⟩ := List.map_eq_cons_iff.1 htasks
    rw [List.forall_mem_cons] at honWay
    refine .cons ⟨honWay.1.later, ?_⟩ (ih htasks honWay.2)
    have hmeets := honWay.1.meets
    rw [← hdone] at hmeets
    exact hmeets

/-! ### Nobody waits for ever -/

/-- A thread that has not ended takes its action, or it waits. -/
theorem step_or_waits (h : Scheduled a reply s₀ threads s) {th : Thread α} (hth : th ∈ threads)
    {after : Stock → Option Stock} {next : Stock → Task α} (htask : th.task = .act after next) :
    (∃ c, Task.Step (threads.map Thread.task, s) c) ∨ Deed.Waits a th.deeds s := by
  rcases hafter : after s with _ | s'
  · have honWay := h.onWay th hth
    have hmeets := honWay.meets
    rw [htask] at hmeets
    exact .inr ((hmeets s honWay.later h.account.good).1 hafter)
  · obtain ⟨before, rest, rfl⟩ := List.append_of_mem hth
    rw [List.map_append, List.map_cons, htask]
    exact .inl ⟨_, .act hafter⟩

/-- What is being computed, some thread computes. -/
theorem exists_computes (h : Scheduled a reply s₀ threads s) {t : Inquiry} (ht : s.Running a t) :
    ∃ th ∈ threads, t ∈ Deed.running th.deeds :=
  List.mem_flatMap.1 ((h.account.cached.busy t).1 ht)

section Idle

variable (hs : a.Sound) (hidle : ∀ wanted ∈ threads.map Thread.wanted, ∀ known deeds b,
  wanted known deeds b → Deed.running deeds = [])

include hidle

/-- A thread that computes something has not ended. -/
theorem exists_act (h : Scheduled a reply s₀ threads s) {th : Thread α} (hth : th ∈ threads)
    {t : Inquiry} (ht : t ∈ Deed.running th.deeds) : ∃ after next, th.task = .act after next := by
  rcases htask : th.task with b | ⟨after, next⟩
  · have hmeets := (h.onWay th hth).meets
    rw [htask] at hmeets
    rw [hidle _ (List.mem_map_of_mem hth) _ _ b hmeets] at ht
    cases ht
  · exact ⟨after, next, rfl⟩

/-- Where something is computed that leads to chains of bounded length, one of the threads can go
on. The induction is on this length: what a thread waits for is further down the chain. -/
theorem exists_step_of_shallow (h : Scheduled a reply s₀ threads s) {k : Nat} {th : Thread α}
    (hth : th ∈ threads) {t : Inquiry} (ht : t ∈ Deed.running th.deeds)
    (hshallow : a.Shallow (k + 1) t.node) : ∃ c, Task.Step (threads.map Thread.task, s) c := by
  induction k generalizing th t with
  | zero =>
    obtain ⟨after, next, htask⟩ := h.exists_act hidle hth ht
    rcases h.step_or_waits hth htask with hstep | ⟨u, hu, hleads⟩
    · exact hstep
    · obtain ⟨r, body, hpasses, hmeans, -⟩ := hu
      have haccepts : a.Accepts u.node :=
        hmeans.node_eq ▸ Request.accepts_of_bodyOf hpasses.bodyOf
      exact absurd haccepts (hshallow.of_transGen (hleads t ht))
  | succ k ih =>
    obtain ⟨after, next, htask⟩ := h.exists_act hidle hth ht
    rcases h.step_or_waits hth htask with hstep | ⟨u, hu, hleads⟩
    · exact hstep
    · obtain ⟨th', hth', hu'⟩ := h.exists_computes hu
      exact ih hth' hu' (hshallow.of_transGen (hleads t ht))

include hs

/-- As long as a thread has not ended, one of them can go on. -/
theorem exists_step (h : Scheduled a reply s₀ threads s) {th : Thread α} (hth : th ∈ threads)
    {after : Stock → Option Stock} {next : Stock → Task α} (htask : th.task = .act after next) :
    ∃ c, Task.Step (threads.map Thread.task, s) c := by
  rcases h.step_or_waits hth htask with hstep | ⟨t, ht, -⟩
  · exact hstep
  · obtain ⟨th', hth', ht'⟩ := h.exists_computes ht
    obtain ⟨k, hk⟩ := hs.exists_shallow t.node
    exact h.exists_step_of_shallow hidle hth' ht' hk.succ

end Idle

end Scheduled

/-! ### Tasks come to an end -/

namespace Task

variable {α : Type}

/-- What is left of a task after an action. -/
inductive Rest : Task α → Task α → Prop
  | next {after : Stock → Option Stock} {next : Stock → Task α} (s : Stock) :
    Rest (next s) (.act after next)

/-- A task is a tree, in which no way goes on for ever. -/
theorem wellFounded_rest : WellFounded (@Rest α) := by
  refine ⟨fun x => ?_⟩
  induction x with
  | done b => exact ⟨_, fun y hy => nomatch hy⟩
  | act after next ih =>
    refine ⟨_, fun y hy => ?_⟩
    cases hy with
    | next s => exact ih s

/-- Of several tasks, one has less left after a step, and the others have what they had. -/
theorem Step.cutExpand {c c' : List (Task α) × Stock} (h : Step c c') :
    CutExpand Rest (c'.1 : Multiset (Task α)) (c.1 : Multiset (Task α)) := by
  cases h with
  | @act before rest after next s s' _ =>
    have hfirst : ∀ x : Task α, ((before ++ x :: rest : List (Task α)) : Multiset (Task α)) =
        {x} + ((before ++ rest : List (Task α)) : Multiset (Task α)) := fun x =>
      Multiset.coe_eq_coe.2 List.perm_middle
    dsimp only
    rw [hfirst, hfirst]
    exact cutExpand_single_add (.next s) _

/-- A single task takes one action after another. -/
theorem run?_of_steps {c c' : List (Task α) × Stock} (h : ReflTransGen Step c c') {x : Task α} {b : α}
    (hx : c.1 = [x]) (hb : c'.1 = [.done b]) : x.run? c.2 = some (b, c'.2) := by
  induction h using ReflTransGen.head_induction_on generalizing x with
  | refl =>
    obtain rfl := List.singleton_inj.1 (hx.symm.trans hb)
    rfl
  | head hstep _ ih =>
    cases hstep with
    | @act before rest after next s s' hs' =>
      rcases List.append_eq_singleton_iff.1 hx with ⟨rfl, hx⟩ | ⟨-, hx⟩
      · cases hx
        rw [run?, hs']
        exact ih rfl
      · cases hx

end Task

namespace Scheduled

variable {α : Type} {a : Analysis} {reply : Inquiry → Except Fault (Tree Scalar)} {s₀ s : Stock}
  {threads : List (Thread α)}

/-- Threads that compute nothing any more when they have ended come to an end. The induction is on
what is left of their tasks: they can go on until nothing is left, and every step leaves less. -/
theorem exists_ends (h : Scheduled a reply s₀ threads s) (hs : a.Sound)
    (hidle : ∀ wanted ∈ threads.map Thread.wanted, ∀ known deeds b,
      wanted known deeds b → Deed.running deeds = []) :
    ∃ (results : List α) (s' : Stock),
      ReflTransGen Task.Step (threads.map Thread.task, s) (results.map .done, s') := by
  have := (Task.wellFounded_rest (α := α)).irrefl
  induction hleft : ((threads.map Thread.task : List (Task α)) : Multiset (Task α)) using
    (Task.wellFounded_rest.cutExpand).induction generalizing threads s with
  | _ left ih =>
    subst hleft
    by_cases hdone : ∀ x ∈ threads.map Thread.task, x ∈ Set.range (Task.done (α := α))
    · have hrange : threads.map Thread.task ∈ Set.range (List.map (Task.done (α := α))) := by
        rw [Set.range_list_map]
        exact hdone
      obtain ⟨results, hresults⟩ := hrange
      exact ⟨results, s, hresults ▸ .refl⟩
    · push Not at hdone
      obtain ⟨x, hx, hact⟩ := hdone
      obtain ⟨th, hth, rfl⟩ := List.mem_map.1 hx
      have htask : ∃ after next, th.task = .act after next := by
        rcases htask : th.task with b | ⟨after, next⟩
        · exact absurd ⟨b, htask.symm⟩ hact
        · exact ⟨after, next, rfl⟩
      obtain ⟨after, next, htask⟩ := htask
      obtain ⟨⟨tasks, s'⟩, hstep⟩ := h.exists_step hs hidle hth htask
      obtain ⟨threads', rfl, hwanted, h'⟩ := h.step rfl hstep
      obtain ⟨results, s'', hsteps⟩ := ih _ hstep.cutExpand h' (hwanted ▸ hidle) rfl
      exact ⟨results, s'', .head hstep hsteps⟩

end Scheduled

end ConstPool
