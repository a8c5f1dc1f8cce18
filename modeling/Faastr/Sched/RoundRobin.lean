import Faastr.Lib.Cycle
import Faastr.Sched.Switch
import Mathlib.Data.List.Sort

/-!
Fairness of `switch`: round robin in the order of the numbers.

`ready` lists the contexts that take part: the one that runs, and all that are runnable
or new and belong to the CPU or to none. As long as no context has a wake time, `switch`
neither adds a context to the list nor takes one away (`switch_settled`), and it moves on
to the next one in it. So a round of as many calls as there are contexts comes to each of
them once (`round_robin`).
-/

namespace Faastr.Sched

open Faastr.Lib

/-- Whether a context may be chosen: it needs to run, and no other CPU owns it. -/
def candidate (cpu : Nat) (c : Context) : Bool :=
  (c.status = .runnable || c.status = .new) && (c.cpuId = none || c.cpuId = some cpu)

namespace Scheduler

variable (cpu : Nat)

/-- The contexts that take part, in the order of their numbers. -/
def ready (s : Scheduler) : List Nat :=
  (s.contexts.map.entries.filter fun e => e.1 = s.contextId || candidate cpu e.2).map Prod.fst

/-- The context that runs is `Running` on the CPU, and no wake time is pending. -/
structure Settled (s : Scheduler) : Prop where
  current : ∃ c, s.get? s.contextId = some c ∧ c.status = .running ∧
    (c.cpuId = none ∨ c.cpuId = some cpu)
  awake : ∀ id c, s.get? id = some c → c.wake = none

/-- Consecutive calls of `switch`, each made by the context just selected: what each
returns and which context it selects. -/
def rounds : List (Nat × Nat) → Scheduler → Except Halt (List (Bool × Nat) × Scheduler)
  | [], s => .ok ([], s)
  | now :: times, s => do
      let (r, s) ← s.switch cpu now
      let (selected, s') ← rounds times s
      return ((r, s.contextId) :: selected, s')

variable {cpu : Nat} {now : Nat × Nat} {s s' : Scheduler}

theorem ready_sorted : (s.ready cpu).Pairwise (· < ·) :=
  List.pairwise_map.mpr (s.contexts.map.sorted.filter _)

theorem mem_ready {id : Nat} : id ∈ s.ready cpu ↔
    ∃ c, s.get? id = some c ∧ (id = s.contextId ∨ candidate cpu c = true) := by
  simp only [ready, List.mem_map, List.mem_filter, Bool.or_eq_true, decide_eq_true_eq, Prod.exists]
  constructor
  · rintro ⟨id', c, ⟨hmem, hready⟩, rfl⟩
    exact ⟨c, OrdMap.mem_entries.mp hmem, hready⟩
  · rintro ⟨c, hget, hready⟩
    exact ⟨id, c, ⟨OrdMap.mem_entries.mpr hget, hready⟩, rfl⟩

theorem runnable_update {c : Context} (hwake : c.wake = none) :
    runnable cpu (update cpu now c) = candidate cpu c := by
  rw [update_awake _ _ hwake, runnable, candidate]
  congr 1
  cases c.cpuId with
  | none => simp
  | some id => simp

/-- A scan for another context goes by the contexts that take part. -/
theorem scan_eq (hs : s.Settled cpu) {p : Nat → Bool} (hp : p s.contextId = false) :
    ((s.updateAll cpu now).contexts.map.entries.find? fun e => p e.1 && runnable cpu e.2).map
      Prod.fst = (s.ready cpu).find? p := by
  have htest : ∀ e ∈ s.contexts.map.entries, (p e.1 && runnable cpu (update cpu now e.2)) =
      decide ((e.1 = s.contextId || candidate cpu e.2) = true ∧ p e.1 = true) := by
    intro e he
    rw [runnable_update (hs.awake e.1 e.2 (OrdMap.mem_entries.mp he))]
    by_cases hid : e.1 = s.contextId
    · simp [hid, hp]
    · simp [hid, Bool.and_comm (p e.1)]
  have hscan : (s.contexts.map.entries.find? fun e => p e.1 && runnable cpu (update cpu now e.2)) =
      s.contexts.map.entries.find? fun e =>
        decide ((e.1 = s.contextId || candidate cpu e.2) = true ∧ p e.1 = true) := by
    rw [← List.head?_filter, ← List.head?_filter, List.filter_congr htest]
  rw [ready, List.find?_map, List.find?_filter, updateAll]
  simp only [OrdMap.mapVal, List.find?_map, Option.map_map]
  exact congrArg (Option.map Prod.fst) hscan

theorem choose_eq (hs : s.Settled cpu) : choose (s.updateAll cpu now).contexts.map cpu s.contextId =
    ((s.ready cpu).find? fun id => s.contextId < id).or
      ((s.ready cpu).find? fun id => id < s.contextId) := by
  have hafter := @scan_eq cpu now s hs (fun id => s.contextId < id) (by simp)
  have hbefore := @scan_eq cpu now s hs (fun id => id < s.contextId) (by simp)
  rw [choose, Option.map_or]
  exact congrArg₂ Option.or hafter hbefore

theorem contextId_mem_ready (hs : s.Settled cpu) : s.contextId ∈ s.ready cpu := by
  obtain ⟨c, hc, -⟩ := hs.current
  exact mem_ready.mpr ⟨c, hc, .inl rfl⟩

theorem candidate_update {c : Context} (hwake : c.wake = none) :
    candidate cpu (update cpu now c) = candidate cpu c := by
  rw [update_awake _ _ hwake, candidate, candidate]
  congr 1
  cases c.cpuId with
  | none => simp
  | some id => simp

theorem cpuId_of_runnable {c : Context} (h : runnable cpu c = true) : c.cpuId = some cpu := by
  simpa using (Bool.and_eq_true_iff.mp h).2

theorem preempt_running {c : Context} (h : c.status = .running) :
    preempt c = { c with status := .runnable } := if_pos h

/-- A context that runs on the CPU may be chosen again after it is switched from. -/
theorem candidate_preempt {c : Context} (hstatus : c.status = .running) (hwake : c.wake = none)
    (hcpu : c.cpuId = none ∨ c.cpuId = some cpu) :
    candidate cpu (preempt (update cpu now c)) = true := by
  rw [update_awake _ _ hwake, preempt_running (by exact hstatus)]
  rcases hcpu with h | h
  · simp [candidate, h]
  · simp [candidate, h]

section Step

variable (hs : s.Settled cpu)

include hs

/-- `switch` neither adds a context that takes part nor takes one away. -/
theorem mem_ready_switch {r : Bool} (h : s.switch cpu now = .ok (r, s')) (id : Nat) :
    id ∈ s'.ready cpu ↔ id ∈ s.ready cpu := by
  rw [mem_ready, mem_ready]
  rcases switch_cases h with ⟨-, rfl⟩ | ⟨-, toId, c, hne, hc, hrunnable, hid, hto, hfrom, hrest⟩
  · rw [get?_updateAll]
    cases hget : s.get? id with
    | none => simp
    | some c =>
      have hsame := @candidate_update cpu now c (hs.awake id c hget)
      simp [hsame, updateAll]
  · obtain ⟨current, hcurrent, hrunning, hcpu⟩ := hs.current
    by_cases hidTo : id = toId
    · rw [runnable_update (hs.awake toId c hc)] at hrunnable
      rw [hidTo, hto, hc, hid]
      simp [hrunnable]
    · by_cases hidFrom : id = s.contextId
      · have hagain := @candidate_preempt cpu now current hrunning (hs.awake _ _ hcurrent) hcpu
        rw [hidFrom, hfrom, hcurrent]
        simp [hagain]
      · rw [hrest id hidTo hidFrom, hid]
        cases hget : s.get? id with
        | none => simp
        | some c =>
          have hsame := @candidate_update cpu now c (hs.awake id c hget)
          simp [hsame, hidTo, hidFrom]

theorem ready_switch {r : Bool} (h : s.switch cpu now = .ok (r, s')) :
    s'.ready cpu = s.ready cpu :=
  ready_sorted.eq_of_mem_iff ready_sorted (mem_ready_switch hs h)

omit hs in
theorem wake_preempt (c : Context) : (preempt c).wake = c.wake := by
  rw [preempt]
  split
  · rfl
  · rfl

theorem settled_switch {r : Bool} (h : s.switch cpu now = .ok (r, s')) : s'.Settled cpu := by
  obtain ⟨current, hcurrent, hrunning, hcpu⟩ := hs.current
  constructor
  · obtain ⟨c', hc'⟩ := current_switch h hcurrent
    obtain ⟨c, hc, hcases⟩ := of_switch h hc'
    refine ⟨c', hc', ?_⟩
    rcases hcases with ⟨rfl, hid⟩ | ⟨rfl, hrunnable, -⟩ | ⟨-, -, hnot⟩
    · rw [← hid.mp rfl] at hc
      cases hcurrent.symm.trans hc
      rw [update_awake _ _ (hs.awake _ _ hcurrent)]
      rcases hcpu with h | h
      · simp [hrunning, h]
      · simp [hrunning, h]
    · have hcpu := cpuId_of_runnable hrunnable
      exact ⟨rfl, .inr hcpu⟩
    · exact absurd rfl hnot
  · intro id c' hget
    obtain ⟨c, hc, hcases⟩ := of_switch h hget
    have hawake := hs.awake id c hc
    rw [update_awake _ _ hawake] at hcases
    rcases hcases with ⟨rfl, -⟩ | ⟨rfl, -⟩ | ⟨rfl, -⟩
    · exact hawake
    · exact hawake
    · rw [wake_preempt]
      exact hawake

theorem status_switch {r : Bool} (h : s.switch cpu now = .ok (r, s')) {id : Nat}
    (hid : id ∉ s.ready cpu) : (s'.get? id).map Context.status = (s.get? id).map Context.status := by
  have hupdate : ((s.get? id).map (update cpu now)).map Context.status =
      (s.get? id).map Context.status := by
    cases hget : s.get? id with
    | none => rfl
    | some c => simp [update_awake _ _ (hs.awake id c hget)]
  rcases switch_cases h with ⟨-, rfl⟩ | ⟨-, toId, c, hne, hc, hrunnable, -, -, -, hrest⟩
  · rw [get?_updateAll, hupdate]
  · rw [runnable_update (hs.awake toId c hc)] at hrunnable
    have hidTo : id ≠ toId := fun heq => hid (mem_ready.mpr ⟨c, heq ▸ hc, .inr hrunnable⟩)
    have hidFrom : id ≠ s.contextId := fun heq => hid (heq ▸ contextId_mem_ready hs)
    rw [hrest id hidTo hidFrom, hupdate]

/-- One call moves on to the next context that takes part, if there is one. -/
theorem switch_settled {ahead : List Nat} (hahead : Cycle (s.ready cpu) s.contextId ahead) :
    ∃ s', s.switch cpu now = .ok (!ahead.isEmpty, s') ∧
      s'.contextId = (ahead.head?).getD s.contextId := by
  obtain ⟨current, hcurrent, -⟩ := hs.current
  have hchoose := (@choose_eq cpu now s hs).trans (hahead.next ready_sorted)
  have hid : (s.updateAll cpu now).contextId = s.contextId := rfl
  unfold switch
  rw [hcurrent]
  dsimp only
  rw [hid, hchoose]
  cases ahead with
  | nil => exact ⟨_, rfl, rfl⟩
  | cons next ahead => exact ⟨_, rfl, rfl⟩

end Step

/-- Calls up to a whole round select the contexts ahead, and the caller last. -/
theorem rounds_settled (times : List (Nat × Nat)) {s : Scheduler} (hs : s.Settled cpu)
    {ahead : List Nat} (hahead : Cycle (s.ready cpu) s.contextId ahead) (hne : ahead ≠ [])
    (hlength : times.length ≤ ahead.length + 1) :
    ∃ s', rounds cpu times s =
      .ok (((ahead ++ [s.contextId]).take times.length).map fun id => (true, id), s') := by
  induction times generalizing s ahead with
  | nil => exact ⟨s, rfl⟩
  | cons now times ih =>
    obtain ⟨next, ahead, rfl⟩ := List.exists_cons_of_ne_nil hne
    obtain ⟨s₁, hswitch, hid⟩ := @switch_settled cpu now s hs _ hahead
    have hid : s₁.contextId = next := hid
    have hcycle : Cycle (s₁.ready cpu) s₁.contextId (ahead ++ [s.contextId]) := by
      rw [ready_switch hs hswitch, hid]
      exact hahead.rotate
    simp only [List.length_cons] at hlength
    obtain ⟨s₂, hrounds⟩ := ih (settled_switch hs hswitch) hcycle (by simp) (by simp; omega)
    refine ⟨s₂, ?_⟩
    have htake : ((ahead ++ [s.contextId]) ++ [s₁.contextId]).take times.length =
        (ahead ++ [s.contextId]).take times.length :=
      List.take_append_of_le_length (by simp; omega)
    rw [htake] at hrounds
    simp only [rounds, hswitch, hrounds, bind, Except.bind, pure, Except.pure, hid]
    simp

/-- Contexts that do not take part keep their status, however many calls are made. -/
theorem status_rounds (times : List (Nat × Nat)) {s s' : Scheduler} (hs : s.Settled cpu)
    {selected : List (Bool × Nat)} (h : rounds cpu times s = .ok (selected, s')) {id : Nat}
    (hid : id ∉ s.ready cpu) : (s'.get? id).map Context.status = (s.get? id).map Context.status := by
  induction times generalizing s selected with
  | nil =>
    cases h
    rfl
  | cons now times ih =>
    cases hswitch : s.switch cpu now with
    | error halt => simp [rounds, hswitch, bind, Except.bind] at h
    | ok r =>
      cases hrounds : rounds cpu times r.2 with
      | error halt => simp [rounds, hswitch, hrounds, bind, Except.bind] at h
      | ok r' =>
        simp only [rounds, hswitch, hrounds, bind, Except.bind, pure, Except.pure,
          Except.ok.injEq, Prod.mk.injEq] at h
        obtain ⟨-, rfl⟩ := h
        have hrest := ih (settled_switch hs hswitch) hrounds (by rwa [ready_switch hs hswitch])
        exact hrest.trans (status_switch hs hswitch hid)

/-- **Round robin.** The contexts that take part are listed in the order of their
numbers. A round of calls selects each of them once, in this order from the caller on and
back to it; a call fails to find another context exactly when there is none; and all
other contexts keep their status. -/
theorem round_robin (hs : s.Settled cpu) :
    (s.ready cpu).Pairwise (· < ·) ∧
    (∃ before after, s.ready cpu = before ++ s.contextId :: after ∧
      ∀ times : List (Nat × Nat), times.length = (s.ready cpu).length →
        2 ≤ (s.ready cpu).length → ∃ s', rounds cpu times s =
          .ok ((after ++ before ++ [s.contextId]).map fun id => (true, id), s')) ∧
    (∀ now, ∃ r s', s.switch cpu now = .ok (r, s') ∧ (r = false ↔ (s.ready cpu).length = 1)) ∧
    ∀ times selected s', rounds cpu times s = .ok (selected, s') →
      ∀ id, id ∉ s.ready cpu →
        (s'.get? id).map Context.status = (s.get? id).map Context.status := by
  obtain ⟨before, after, hready⟩ := List.append_of_mem (contextId_mem_ready hs)
  have hcycle : Cycle (s.ready cpu) s.contextId (after ++ before) := ⟨before, after, hready, rfl⟩
  have hlength := hcycle.length
  refine ⟨ready_sorted, ⟨before, after, hready, fun times htimes htwo => ?_⟩, fun now => ?_,
    fun times selected s' h id => status_rounds times hs h⟩
  · have hne : after ++ before ≠ [] := by
      intro hnil
      rw [hnil, List.length_nil] at hlength
      omega
    obtain ⟨s', hrounds⟩ := rounds_settled times hs hcycle hne (by omega)
    rw [List.take_of_length_le (by rw [List.length_append, List.length_singleton]; omega)] at hrounds
    exact ⟨s', hrounds⟩
  · obtain ⟨s', hswitch, -⟩ := @switch_settled cpu now s hs _ hcycle
    refine ⟨_, s', hswitch, ?_⟩
    rw [hlength]
    simp

/-- Context 2 runs; 1 is runnable, 4 is new, and 3 and 5 do not take part. -/
def sampleList : Scheduler where
  contexts :=
    { map :=
        { entries := [(1, { Context.new with status := .runnable, cpuId := some 0 }),
            (2, { Context.new with status := .running, cpuId := some 0 }), (3, Context.new),
            (4, { Context.new with status := .new }), (5, { Context.new with status := .exited })]
          sorted := by decide }
      nextId := 6 }
  contextId := 2

theorem sampleList_round : sampleList.Settled 0 ∧ ∃ before after s',
    sampleList.ready 0 = before ++ 2 :: after ∧ rounds 0 [(0, 0), (0, 1), (0, 2)] sampleList =
      .ok ((after ++ before ++ [2]).map fun id => (true, id), s') := by
  have hs : sampleList.Settled 0 := by
    refine ⟨⟨{ Context.new with status := .running, cpuId := some 0 }, by decide, by decide, by decide⟩,
      fun id c hget => ?_⟩
    have hmem := OrdMap.mem_entries.mpr hget
    have hall : ∀ e ∈ sampleList.contexts.map.entries, e.2.wake = none := by decide
    exact hall (id, c) hmem
  obtain ⟨-, ⟨before, after, hready, hround⟩, -⟩ := round_robin hs
  obtain ⟨s', hrounds⟩ := hround [(0, 0), (0, 1), (0, 2)] (by decide) (by decide)
  exact ⟨hs, before, after, s', hready, hrounds⟩

end Scheduler

end Faastr.Sched
