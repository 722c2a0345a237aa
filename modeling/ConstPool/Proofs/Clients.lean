import Mathlib.Data.Finset.Card
import ConstPool.Proofs.Memo

/-!
# Clients of the cache

What the cache does for whoever asks it, whatever that is. A client requests keys with
computations, which are clients themselves, looks at keys without a computation, does anything with
the rest of the stock, and goes on according to what it was told. From an empty cache no key is
computed twice, and all that is ever told about a key is the outcome of its one computation. The two
counters tell how many requests there were and for how many keys.

A computation may request its own key. Such a request has no answer: it is barred.

* `Client`, `Client.run`: programs that use the cache.
* `Access`, `Client.log`: what happens to keys while a client runs.
* `Access.History`: what is asked of a log.
* `Memo.Logged`: the cache and the log go together.
* `Memo.AtRest`: what the counters tell when no computation is running.
-/

namespace ConstPool

/-! ### Clients -/

/-- A program that uses the cache. -/
inductive Client where
  /-- The end, with an outcome. -/
  | done (o : Outcome)
  /-- Requests a key with a computation, which runs if the key has no outcome yet. -/
  | request (key : MemoKey) (compute : Client) (next : Outcome → Client)
  /-- Looks at a key. -/
  | peek (key : MemoKey) (next : Option Outcome → Client)
  /-- Does something with what the cache is no part of. -/
  | apart (step : Pool → Uses → Pool × Uses) (next : Pool → Uses → Client)

/-- What happens to a key. -/
inductive Access where
  | requested (key : MemoKey)
  /-- The computation that came with a request begins. -/
  | began (key : MemoKey)
  /-- The computation ends with an outcome. -/
  | ended (key : MemoKey) (o : Outcome)
  /-- A request is answered. -/
  | answered (key : MemoKey) (o : Outcome)
  /-- A request has no answer. -/
  | barred (key : MemoKey)
  /-- Somebody looked at the key and was told this. -/
  | peeked (key : MemoKey) (found : Option Outcome)

namespace Access

/-- What is asked of an event, given those before it: a computation of a key that has begun once
never begins again, and what is told about a key is the outcome of its computation, if that has
ended. -/
def Lawful (before : List Access) : Access → Prop
  | .requested _ => True
  | .began key => .began key ∉ before
  | .ended key _ => .began key ∈ before ∧ ∀ o, .ended key o ∉ before
  | .answered key o => .ended key o ∈ before
  | .barred key => .began key ∈ before ∧ ∀ o, .ended key o ∉ before
  | .peeked key found => ∀ o, found = some o ↔ .ended key o ∈ before

/-- A log in which every event is as asked, given those before it. -/
inductive History : List Access → Prop
  | nil : History []
  | snoc {log : List Access} {e : Access} : History log → e.Lawful log → History (log ++ [e])

/-- The key that an event requests. -/
def requested? : Access → Option MemoKey
  | .requested key => some key
  | _ => none

/-- The key of which an event begins a computation. -/
def began? : Access → Option MemoKey
  | .began key => some key
  | _ => none

/-- The key of a request that an event bars. -/
def barred? : Access → Option MemoKey
  | .barred key => some key
  | _ => none

/-- The keys that are requested, each as often as it is. -/
abbrev requests (log : List Access) : List MemoKey := log.filterMap requested?

/-- The keys of which a computation has begun. -/
abbrev begun (log : List Access) : List MemoKey := log.filterMap began?

/-- The keys of the requests that were barred. -/
abbrev bars (log : List Access) : List MemoKey := log.filterMap barred?

/-- The keys that have begun are those of which the log says so. -/
theorem mem_begun {log : List Access} {key : MemoKey} : key ∈ begun log ↔ .began key ∈ log := by
  refine List.mem_filterMap.trans ⟨?_, fun h => ⟨_, h, rfl⟩⟩
  rintro ⟨e, he, hkey⟩
  cases e <;> cases hkey
  exact he

end Access

/-- What is told about a key is the outcome in its cell. -/
theorem Memo.peek_eq_some_iff {memo : Memo} {key : MemoKey} {o : Outcome} :
    memo.peek key = some o ↔ memo.cells.get? key = some (.done o) := by
  unfold peek
  rcases memo.cells.get? key with _ | _ | o' <;> simp

namespace Client

/-- Runs a client. -/
def run : Client → Work ValueId
  | .done o => Work.ofExcept o
  | .request key compute next => fun s =>
    let (o, s') := (Work.remember key compute.run).outcome s
    (next o).run s'
  | .peek key next => fun s => (next (s.memo.peek key)).run s
  | .apart step next => fun s =>
    let (pool, uses) := step s.pool s.uses
    (next pool uses).run ⟨pool, uses, s.memo⟩

/-- What happens while a client runs. -/
def log : Client → Stock → List Access
  | .done _, _ => []
  | .request key compute next, s =>
    let (o, s') := (Work.remember key compute.run).outcome s
    let here :=
      match s.memo.cells.get? key with
      | none =>
        let start : Stock := { s with memo := s.memo.start key }
        .began key :: compute.log start ++
          [.ended key (compute.run.outcome start).1, .answered key o]
      | some .running => [.barred key]
      | some (.done _) => [.answered key o]
    .requested key :: here ++ (next o).log s'
  | .peek key next, s => .peeked key (s.memo.peek key) :: (next (s.memo.peek key)).log s
  | .apart step next, s =>
    let (pool, uses) := step s.pool s.uses
    (next pool uses).log ⟨pool, uses, s.memo⟩

end Client

/-! ### The cache and the log -/

namespace Memo

open Access

variable {busy : List MemoKey} {log : List Access} {memo : Memo} {key : MemoKey} {o : Outcome}

/-- The cells tell what has happened to their keys. Some keys are busy: their computations are
running. -/
structure Mirrors (busy : List MemoKey) (log : List Access) (memo : Memo) : Prop where
  known : ∀ key, (memo.cells.get? key).isSome ↔ .began key ∈ log
  done : ∀ key o, memo.cells.get? key = some (.done o) ↔ .ended key o ∈ log
  running : ∀ key, memo.cells.get? key = some .running ↔ key ∈ busy

/-- The counters tell how much has happened. -/
structure Counts (busy : List MemoKey) (log : List Access) (memo : Memo) : Prop where
  nodup : (begun log).Nodup
  asked : ∀ key, key ∈ requests log ↔ key ∈ begun log
  cells : memo.size = (begun log).length
  computed : memo.misses + busy.length = memo.size
  counted : (requests log).length = memo.size + memo.hits + (bars log).length

/-- The cache and the log go together. -/
structure Logged (busy : List MemoKey) (log : List Access) (memo : Memo) : Prop where
  lawful : History log
  mirrors : Mirrors busy log memo
  counts : Counts busy log memo

/-- What the counters tell when no computation is running. -/
structure AtRest (log : List Access) (memo : Memo) : Prop where
  settled : ∀ key, memo.cells.get? key ≠ some .running
  /-- There are as many misses as cells. -/
  computed : memo.misses = memo.size
  /-- There are as many cells as different keys that were requested. -/
  cells : memo.size = (requests log).toFinset.card
  /-- Hits and misses are all requests but those that were barred. -/
  counted : memo.hits + memo.misses + (bars log).length = (requests log).length

/-! #### Cells -/

namespace Mirrors

/-- A key without a cell was never begun. -/
theorem not_began (h : Mirrors busy log memo) (hcell : memo.cells.get? key = none) :
    .began key ∉ log := by
  rw [← h.known, hcell]
  exact Bool.false_ne_true

/-- A key with a cell was begun. -/
theorem began {cell : MemoCell} (h : Mirrors busy log memo)
    (hcell : memo.cells.get? key = some cell) : .began key ∈ log := by
  rw [← h.known, hcell]
  rfl

/-- A key whose cell has no outcome was never ended. -/
theorem not_ended (h : Mirrors busy log memo)
    (hcell : ∀ o, memo.cells.get? key ≠ some (.done o)) (o : Outcome) : .ended key o ∉ log :=
  fun hended => hcell o ((h.done key o).2 hended)

/-- A computation begins. -/
theorem start (h : Mirrors busy log memo) (hcell : memo.cells.get? key = none) :
    Mirrors (key :: busy) (log ++ [.requested key] ++ [.began key]) (memo.start key) := by
  have hended : ∀ o, .ended key o ∉ log := h.not_ended (by simp [hcell])
  refine ⟨fun k => ?_, fun k o => ?_, fun k => ?_⟩
  all_goals
    rw [Memo.start, Dict.get?_insert]
    split
  · next heq => simp [heq]
  · next hne => simp [h.known, hne]
  · next heq => simp [heq, hended]
  · simp [h.done]
  · next heq => simp [heq]
  · next hne => simp [h.running, hne]

/-- A computation ends. -/
theorem finish (h : Mirrors (key :: busy) log memo) (hkey : key ∉ busy) (o : Outcome) :
    Mirrors busy (log ++ [.ended key o] ++ [.answered key o]) (memo.finish key o) := by
  have hcell : memo.cells.get? key = some .running := (h.running key).2 (List.mem_cons_self ..)
  have hended : ∀ o, .ended key o ∉ log := h.not_ended (by simp [hcell])
  refine ⟨fun k => ?_, fun k o' => ?_, fun k => ?_⟩
  all_goals
    rw [Memo.finish, Dict.get?_insert]
    split
  · next heq => simp [heq, h.began hcell]
  · simp [h.known]
  · next heq => simp [heq, hended, eq_comm]
  · next hne => simp [h.done, hne]
  · next heq => simp [heq, hkey]
  · next hne => simp [h.running, hne]

/-- No computation begins or ends. -/
theorem more (h : Mirrors busy log memo) {events : List Access} (hbegan : begun events = [])
    (hended : ∀ key o, .ended key o ∉ events) (k : Nat) :
    Mirrors busy (log ++ events) { memo with hits := memo.hits + k } := by
  have hnone : ∀ key, .began key ∉ events := by
    intro key
    rw [← mem_begun, hbegan]
    exact List.not_mem_nil
  refine ⟨fun key => ?_, fun key o => ?_, h.running⟩
  · simp [h.known, hnone]
  · simp [h.done, hended]

end Mirrors

/-! #### Counters -/

namespace Counts

/-- A computation begins. -/
theorem start (h : Counts busy log memo) (hcell : memo.cells.get? key = none)
    (hnew : .began key ∉ log) :
    Counts (key :: busy) (log ++ [.requested key] ++ [.began key]) (memo.start key) := by
  have hrequests : requests (log ++ [.requested key] ++ [.began key]) = requests log ++ [key] := by
    simp [List.filterMap_cons, requested?]
  have hbegun : begun (log ++ [.requested key] ++ [.began key]) = begun log ++ [key] := by
    simp [List.filterMap_cons, began?]
  have hbars : bars (log ++ [.requested key] ++ [.began key]) = bars log := by
    simp [List.filterMap_cons, barred?]
  have hsize : (memo.start key).size = memo.size + 1 := Memo.size_start hcell
  have hhits : (memo.start key).hits = memo.hits := rfl
  have hmisses : (memo.start key).misses = memo.misses := rfl
  refine ⟨?_, fun k => ?_, ?_, ?_, ?_⟩
  · rw [hbegun, ← List.concat_eq_append]
    exact h.nodup.concat fun hin => hnew (mem_begun.1 hin)
  · rw [hrequests, hbegun, List.mem_append, List.mem_append, h.asked]
  · rw [hsize, hbegun, List.length_append, h.cells]
    rfl
  · rw [hsize, hmisses, List.length_cons, ← h.computed]
    omega
  · rw [hrequests, hbars, hhits, hsize, List.length_append, h.counted, List.length_singleton]
    omega

/-- A computation ends. -/
theorem finish (h : Counts (key :: busy) log memo) (hcell : memo.cells.get? key = some .running)
    (o : Outcome) :
    Counts busy (log ++ [.ended key o] ++ [.answered key o]) (memo.finish key o) := by
  have hrequests : requests (log ++ [.ended key o] ++ [.answered key o]) = requests log := by
    simp [List.filterMap_cons, requested?]
  have hbegun : begun (log ++ [.ended key o] ++ [.answered key o]) = begun log := by
    simp [List.filterMap_cons, began?]
  have hbars : bars (log ++ [.ended key o] ++ [.answered key o]) = bars log := by
    simp [List.filterMap_cons, barred?]
  have hsize : (memo.finish key o).size = memo.size := Memo.size_finish hcell o
  have hmisses : (memo.finish key o).misses = memo.misses + 1 := rfl
  refine ⟨?_, ?_, ?_, ?_, ?_⟩
  · rw [hbegun]
    exact h.nodup
  · rw [hrequests, hbegun]
    exact h.asked
  · rw [hsize, hbegun]
    exact h.cells
  · rw [hsize, hmisses, ← h.computed, List.length_cons]
    omega
  · rw [hrequests, hbars, hsize]
    exact h.counted

/-- No computation begins or ends. -/
theorem more (h : Counts busy log memo) {events : List Access} {k : Nat}
    (hbegan : begun events = []) (hasked : ∀ key ∈ requests events, .began key ∈ log)
    (hcount : (requests events).length = k + (bars events).length) :
    Counts busy (log ++ events) { memo with hits := memo.hits + k } := by
  have hbegun : begun (log ++ events) = begun log := by
    rw [← List.append_nil (begun log), ← hbegan]
    exact List.filterMap_append
  refine ⟨?_, fun key => ?_, ?_, h.computed, ?_⟩
  · rw [hbegun]
    exact h.nodup
  · rw [hbegun, requests, List.filterMap_append, List.mem_append, h.asked]
    exact ⟨fun hkey => hkey.elim id fun hkey => mem_begun.2 (hasked key hkey), .inl⟩
  · rw [hbegun]
    exact h.cells
  · have hlog := h.counted
    simp only [requests, bars, List.filterMap_append, List.length_append] at hlog hcount ⊢
    rw [hlog, hcount]
    simp only [Memo.size]
    omega

end Counts

/-! #### Both -/

namespace Logged

/-- At the beginning the cache is empty, and nothing was logged. -/
theorem empty : Logged [] [] {} where
  lawful := .nil
  mirrors := ⟨fun key => by simp, fun key o => by simp, fun key => by simp⟩
  counts := ⟨.nil, fun key => by simp, rfl, rfl, rfl⟩

/-- A computation begins. -/
theorem start (h : Logged busy log memo) (hcell : memo.cells.get? key = none) :
    Logged (key :: busy) (log ++ [.requested key] ++ [.began key]) (memo.start key) where
  lawful := by
    refine (h.lawful.snoc (e := .requested key) trivial).snoc ?_
    simp [Lawful, h.mirrors.not_began hcell]
  mirrors := h.mirrors.start hcell
  counts := h.counts.start hcell (h.mirrors.not_began hcell)

/-- A computation ends. -/
theorem finish (h : Logged (key :: busy) log memo) (hkey : key ∉ busy) (o : Outcome) :
    Logged busy (log ++ [.ended key o] ++ [.answered key o]) (memo.finish key o) := by
  have hcell : memo.cells.get? key = some .running :=
    (h.mirrors.running key).2 (List.mem_cons_self ..)
  have hended : Lawful log (.ended key o) :=
    ⟨h.mirrors.began hcell, h.mirrors.not_ended (by simp [hcell])⟩
  exact ⟨(h.lawful.snoc hended).snoc (by simp [Lawful]), h.mirrors.finish hkey o,
    h.counts.finish hcell o⟩

/-- A request finds an outcome. -/
theorem found (h : Logged busy log memo) (hcell : memo.cells.get? key = some (.done o)) :
    Logged busy (log ++ [.requested key, .answered key o]) memo.hit := by
  have hended : .ended key o ∈ log := (h.mirrors.done key o).1 hcell
  have hlawful : History (log ++ [.requested key] ++ [.answered key o]) :=
    (h.lawful.snoc (e := .requested key) trivial).snoc (by simp [Lawful, hended])
  rw [List.append_assoc] at hlawful
  refine ⟨hlawful, h.mirrors.more rfl (by simp) 1, h.counts.more rfl ?_ rfl⟩
  simp [List.filterMap_cons, requested?, h.mirrors.began hcell]

/-- A request is barred. -/
theorem barred (h : Logged busy log memo) (hcell : memo.cells.get? key = some .running) :
    Logged busy (log ++ [.requested key, .barred key]) memo := by
  have hbarred : Lawful (log ++ [.requested key]) (.barred key) := by
    have hended : ∀ o, .ended key o ∉ log := h.mirrors.not_ended (by simp [hcell])
    simp [Lawful, h.mirrors.began hcell, hended]
  have hlawful : History (log ++ [.requested key] ++ [.barred key]) :=
    (h.lawful.snoc (e := .requested key) trivial).snoc hbarred
  rw [List.append_assoc] at hlawful
  refine ⟨hlawful, h.mirrors.more rfl (by simp) 0, h.counts.more (k := 0) rfl ?_ rfl⟩
  simp [List.filterMap_cons, requested?, h.mirrors.began hcell]

/-- Somebody looks at a key. -/
theorem peeked (h : Logged busy log memo) (key : MemoKey) :
    Logged busy (log ++ [.peeked key (memo.peek key)]) memo := by
  have hpeek : Lawful log (.peeked key (memo.peek key)) := fun o =>
    peek_eq_some_iff.trans (h.mirrors.done key o)
  exact ⟨h.lawful.snoc hpeek, h.mirrors.more rfl (by simp) 0,
    h.counts.more (k := 0) rfl (by simp [requested?]) rfl⟩

/-- No computation is running. -/
theorem atRest (h : Logged [] log memo) : AtRest log memo := by
  have hmisses : memo.misses = memo.size := h.counts.computed
  have hkeys : (requests log).toFinset = (begun log).toFinset := by
    ext key
    simp only [List.mem_toFinset]
    exact h.counts.asked key
  refine ⟨fun key hrunning => ?_, hmisses, ?_, ?_⟩
  · cases (h.mirrors.running key).1 hrunning
  · rw [hkeys, List.toFinset_card_of_nodup h.counts.nodup]
    exact h.counts.cells
  · rw [h.counts.counted, hmisses]
    omega

end Logged

end Memo

/-! ### Every client -/

namespace Client

open Access

variable {busy : List MemoKey} {log : List Access} {s : Stock}

section Request

variable {key : MemoKey} {compute : Client} {next : Outcome → Client} {o : Outcome} {s' : Stock}

/-- A client goes on with the answer to its request. -/
theorem outcome_run_request (h : (Work.remember key compute.run).outcome s = (o, s')) :
    (Client.request key compute next).run.outcome s = (next o).run.outcome s' := by
  have hrun : (Client.request key compute next).run s = (next o).run s' := by simp only [run, h]
  unfold Work.outcome
  rw [hrun]

/-- The log of a request that is answered from the cache. -/
theorem log_of_done (h : s.memo.cells.get? key = some (.done o)) :
    (Client.request key compute next).log s =
      [.requested key, .answered key o] ++ (next o).log { s with memo := s.memo.hit } := by
  rw [Client.log, Work.outcome_remember_of_done h, h]

/-- The log of a request for a key that is being computed. -/
theorem log_of_running (h : s.memo.cells.get? key = some .running) :
    (Client.request key compute next).log s =
      [.requested key, .barred key] ++
        (next (.error (.breach (.computedTwice key.name)))).log s := by
  rw [Client.log, Work.outcome_remember_of_running h, h]

/-- The log of a request that is computed: it holds that of the computation. -/
theorem log_of_none (h : s.memo.cells.get? key = none)
    (hcompute : compute.run.outcome { s with memo := s.memo.start key } = (o, s')) :
    (Client.request key compute next).log s =
      [.requested key] ++ [.began key] ++ compute.log { s with memo := s.memo.start key } ++
        [.ended key o] ++ [.answered key o] ++
          (next o).log { s' with memo := s'.memo.finish key o } := by
  rw [Client.log, Work.outcome_remember_of_none h, h, hcompute]
  simp [hcompute]

end Request

/-- The cache and the log go together while a client runs. The induction is on the client: a
computation that comes with a request is one of its parts. -/
theorem logged (c : Client) (h : Memo.Logged busy log s.memo) :
    Memo.Logged busy (log ++ c.log s) (c.run.outcome s).2.memo := by
  induction c generalizing busy log s with
  | done o =>
    rw [Client.log, List.append_nil]
    cases o <;> exact h
  | request key compute next ihcompute ihnext =>
    rcases hcell : s.memo.cells.get? key with _ | _ | o
    · -- The computation runs with the key busy, and the client goes on when it has ended.
      have hnew : key ∉ busy := by
        rw [← h.mirrors.running, hcell]
        exact nofun
      rcases hcompute : compute.run.outcome { s with memo := s.memo.start key } with ⟨o, s'⟩
      have hinner : Memo.Logged (key :: busy)
          (log ++ [.requested key] ++ [.began key] ++
            compute.log { s with memo := s.memo.start key }) s'.memo := by
        have hends := ihcompute (s := { s with memo := s.memo.start key }) (h.start hcell)
        rwa [hcompute] at hends
      have hremember : (Work.remember key compute.run).outcome s =
          (o, { s' with memo := s'.memo.finish key o }) := by
        rw [Work.outcome_remember_of_none hcell, hcompute]
      rw [outcome_run_request hremember, log_of_none hcell hcompute]
      simp only [← List.append_assoc] at hinner ⊢
      exact ihnext _ (hinner.finish hnew o)
    · rw [outcome_run_request (Work.outcome_remember_of_running hcell), log_of_running hcell,
        ← List.append_assoc]
      exact ihnext _ (h.barred hcell)
    · rw [outcome_run_request (Work.outcome_remember_of_done hcell), log_of_done hcell,
        ← List.append_assoc]
      exact ihnext _ (h.found hcell)
  | peek key next ih =>
    rw [Client.log, List.append_cons]
    exact ih _ (h.peeked key)
  | apart step next ih => exact ih _ _ h

end Client

end ConstPool
