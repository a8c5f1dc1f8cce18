import Faastr.Sched.Cpu

/-!
What every run of the kernel keeps: the books about contexts and what they are doing.

A callee is not switched to before its caller switches to it; a context in a queue waits
for what the queue is for.

* `Sound.reschedule`, `Sound.act`: what may change without the books going wrong.
* `Sound.step`: every move keeps the books right.
* `waits_for_one`: in every run a context waits for one thing at a time.
-/

namespace Faastr.Sched

open Faastr.Lib Relation

namespace Cpu

structure Sound (s : Cpu) : Prop where
  current : ∃ c, s.sched.get? s.current = some c
  absent : ∀ id, s.sched.get? id = none → s.doing id = .free
  /-- A result is there from `sys_return`, or for a call to the host. -/
  result : ∀ id c, s.sched.get? id = some c → c.result ≠ none →
    s.doing id = .leaving ∨ s.doing id = .exiting ∨ (∃ callid, s.doing id = .asking callid) ∨
      ∃ callid, s.doing id = .hosting callid
  /-- A callee that has not been switched to has no callees itself. -/
  linked : ∀ id c parent, s.sched.get? id = some c → c.retLink = some parent →
    parent ≠ id ∧ (∃ c', s.sched.get? parent = some c') ∧ ∀ id', s.doing id' ≠ .calling parent
  calling : ∀ id callee, s.doing id = .calling callee → s.doing callee = .free ∧ callee ≠ s.current ∧
    ∃ c, s.sched.get? callee = some c ∧ c.status = .blocked ∧ c.wake = none ∧ c.retLink = some id
  /-- A context in the queue waits for its answer. -/
  queue : ∀ callid id, s.queue callid = some id →
    (s.doing id = .asking callid ∨ s.doing id = .hosting callid) ∧
      ∃ c, s.sched.get? id = some c ∧ c.result = none
  /-- A context in a condition waits for it. -/
  conditions : ∀ condition id, id ∈ s.conditions condition →
    s.doing id = .queued condition ∨ s.doing id = .sleeping (.wait condition)
  distinct : ∀ condition, (s.conditions condition).Nodup

/-- What a context does that has a result. -/
def MayHold (d : Doing) : Prop :=
  d = .leaving ∨ d = .exiting ∨ (∃ callid, d = .asking callid) ∨ ∃ callid, d = .hosting callid

/-! ### One context does something else -/

/-- The context `id`, which was `c`, becomes `c'` and now does `d`. -/
structure Acts (s t : Cpu) (id : Nat) (c c' : Context) (d : Doing) : Prop where
  before : s.sched.get? id = some c
  current : t.current = s.current
  after : ∀ k, t.sched.get? k = if k = id then some c' else s.sched.get? k
  doing : t.doing = Function.update s.doing id d

section Acts

variable {s t : Cpu} {id k : Nat} {c c' ck : Context} {d : Doing}

theorem acts_of_modify {f : Context → Context} (hc : s.sched.get? id = some c)
    (hsched : t.sched = s.sched.modify id f) (hdoing : t.doing = Function.update s.doing id d) :
    Acts s t id c (f c) d where
  before := hc
  current := by rw [current, hsched]; rfl
  after k := by
    rw [hsched, Scheduler.get?_modify]
    split
    · next hk => rw [hk, hc]; rfl
    · rfl
  doing := hdoing

theorem acts_of_eq (hc : s.sched.get? id = some c) (hsched : t.sched = s.sched)
    (hdoing : t.doing = Function.update s.doing id d) : Acts s t id c c d where
  before := hc
  current := by rw [current, hsched]; rfl
  after k := by
    rw [hsched]
    split
    · next hk => rw [hk, hc]
    · rfl
  doing := hdoing

variable (h : Acts s t id c c' d)

include h

theorem Acts.self : t.sched.get? id = some c' := (h.after id).trans (if_pos rfl)

theorem Acts.other (hk : k ≠ id) : t.sched.get? k = s.sched.get? k := (h.after k).trans (if_neg hk)

theorem Acts.doing_self : t.doing id = d := by
  rw [h.doing, Function.update_self]

theorem Acts.doing_other (hk : k ≠ id) : t.doing k = s.doing k := by
  rw [h.doing, Function.update_of_ne hk]

theorem Acts.cases (hk : t.sched.get? k = some ck) :
    k = id ∧ ck = c' ∨ k ≠ id ∧ s.sched.get? k = some ck := by
  by_cases hne : k = id
  · subst hne
    cases h.self.symm.trans hk
    exact .inl ⟨rfl, rfl⟩
  · exact .inr ⟨hne, (h.other hne).symm.trans hk⟩

theorem Acts.exists_after (hk : s.sched.get? k = some ck) : ∃ ck', t.sched.get? k = some ck' := by
  by_cases hne : k = id
  · exact ⟨c', hne ▸ h.self⟩
  · exact ⟨ck, (h.other hne).trans hk⟩

/-- A link that is there now was there before. -/
theorem Acts.linked {parent : Nat} (hlink : ∀ parent, c'.retLink = some parent → c.retLink = some parent)
    (hk : t.sched.get? k = some ck) (hparent : ck.retLink = some parent) :
    ∃ c₀, s.sched.get? k = some c₀ ∧ c₀.retLink = some parent := by
  rcases h.cases hk with ⟨rfl, rfl⟩ | ⟨-, hk⟩
  · exact ⟨c, h.before, hlink parent hparent⟩
  · exact ⟨ck, hk, hparent⟩

end Acts

section Sound

variable {cpu : Nat} {s s' t : Cpu} {a : CpuMove} {id : Nat} {c c' : Context} {d : Doing}

theorem sound_boot (cpu : Nat) : (boot cpu).Sound where
  current := ⟨_, rfl⟩
  absent _ _ := rfl
  result id c hc hresult := by
    obtain ⟨-, rfl⟩ := Scheduler.of_get?_boot hc
    exact absurd rfl hresult
  linked id c parent hc hlink := by
    obtain ⟨-, rfl⟩ := Scheduler.of_get?_boot hc
    cases hlink
  calling _ _ hcalling := by cases hcalling
  queue _ _ hqueue := by cases hqueue
  conditions _ _ hmem := by cases hmem
  distinct _ := List.nodup_nil

/-- A context that is there was there before. -/
theorem get_of_after {P : Context → Context → Prop} (hnone : s.sched.get? id = none → t.sched.get? id = none)
    (hsome : ∀ c, s.sched.get? id = some c → ∃ c', t.sched.get? id = some c' ∧ P c c')
    (hc' : t.sched.get? id = some c') : ∃ c, s.sched.get? id = some c ∧ P c c' := by
  cases hc : s.sched.get? id with
  | none => cases (hnone hc).symm.trans hc'
  | some c =>
    obtain ⟨c'', hc'', hP⟩ := hsome c hc
    cases hc'.symm.trans hc''
    exact ⟨c, rfl, hP⟩

/-- Contexts are scheduled. What a callee is before it is switched to stays. -/
theorem Sound.reschedule (h : s.Sound) (hdoing : t.doing = s.doing) (hqueue : t.queue = s.queue)
    (hconditions : ∀ condition, (t.conditions condition).Sublist (s.conditions condition))
    (hcurrent : ∃ c, t.sched.get? t.current = some c)
    (hnone : ∀ id, s.sched.get? id = none → t.sched.get? id = none)
    (hsome : ∀ id c, s.sched.get? id = some c → ∃ c', t.sched.get? id = some c' ∧
      c'.retLink = c.retLink ∧ c'.result = c.result ∧ ∀ id', s.doing id' = .calling id →
        c'.status = .blocked ∧ c'.wake = none ∧ id ≠ t.current) : t.Sound := by
  refine ⟨hcurrent, fun id hid => ?_, fun id c' hc' hresult' => ?_, fun id c' parent hc' hlink' => ?_,
    fun id callee hcalling => ?_, fun callid id hid => ?_, fun condition id hid => ?_, fun condition =>
      (h.distinct condition).sublist (hconditions condition)⟩
  · rw [hdoing]
    refine h.absent id (Option.eq_none_iff_forall_ne_some.mpr fun c hc => ?_)
    obtain ⟨c', hc', -⟩ := hsome id c hc
    cases hid.symm.trans hc'
  · obtain ⟨c, hc, -, hresult, -⟩ := get_of_after (hnone id) (hsome id) hc'
    rw [hdoing]
    exact h.result id c hc (hresult ▸ hresult')
  · obtain ⟨c, hc, hlink, -⟩ := get_of_after (hnone id) (hsome id) hc'
    obtain ⟨hne, ⟨cp, hcp⟩, hnot⟩ := h.linked id c parent hc (hlink ▸ hlink')
    obtain ⟨cp', hcp', -⟩ := hsome parent cp hcp
    rw [hdoing]
    exact ⟨hne, ⟨cp', hcp'⟩, hnot⟩
  · rw [hdoing] at hcalling ⊢
    obtain ⟨hfree, -, c, hc, -, -, hlink⟩ := h.calling id callee hcalling
    obtain ⟨c', hc', hlink', -, hkeep⟩ := hsome callee c hc
    obtain ⟨hstatus, hwake, hne⟩ := hkeep id hcalling
    exact ⟨hfree, hne, c', hc', hstatus, hwake, hlink'.trans hlink⟩
  · rw [hqueue] at hid
    obtain ⟨hwaits, c, hc, hresult⟩ := h.queue callid id hid
    obtain ⟨c', hc', -, hresult', -⟩ := hsome id c hc
    rw [hdoing]
    exact ⟨hwaits, c', hc', hresult'.trans hresult⟩
  · rw [hdoing]
    exact h.conditions condition id ((hconditions condition).subset hid)

/-- A context that has been switched to does something else, and is changed. -/
theorem Sound.act (h : s.Sound) (hact : Acts s t id c c' d) (hid : id = s.current ∨ s.doing id ≠ .free)
    (hd : ∀ callee, d ≠ .calling callee)
    (hlink : ∀ parent, c'.retLink = some parent → c.retLink = some parent)
    (hresult : c'.result ≠ none → MayHold d)
    (hqueue : ∀ callid k, t.queue callid = some k →
      k = id ∧ (d = .asking callid ∨ d = .hosting callid) ∧ c'.result = none ∨
      k ≠ id ∧ s.queue callid = some k)
    (hconditions : ∀ condition k, k ∈ t.conditions condition →
      k = id ∧ (d = .queued condition ∨ d = .sleeping (.wait condition)) ∨
      k ≠ id ∧ k ∈ s.conditions condition)
    (hdistinct : ∀ condition, (t.conditions condition).Nodup) : t.Sound := by
  -- The new context makes no call that it has not switched to.
  have hcalling : ∀ {k callee}, t.doing k = .calling callee → k ≠ id ∧ s.doing k = .calling callee := by
    intro k callee hk
    have hne : k ≠ id := by
      rintro rfl
      exact hd callee (hact.doing_self.symm.trans hk)
    exact ⟨hne, (hact.doing_other hne).symm.trans hk⟩
  refine ⟨?_, fun k hk => ?_, fun k ck hk hresult' => ?_, fun k ck parent hk hlink' => ?_,
    fun k callee hk => ?_, fun callid k hk => ?_, fun condition k hk => ?_, hdistinct⟩
  · obtain ⟨ck, hck⟩ := h.current
    rw [hact.current]
    exact hact.exists_after hck
  · have hne : k ≠ id := by
      rintro rfl
      cases hact.self.symm.trans hk
    rw [hact.doing_other hne]
    exact h.absent k ((hact.other hne).symm.trans hk)
  · rcases hact.cases hk with ⟨rfl, rfl⟩ | ⟨hne, hk⟩
    · rw [hact.doing_self]
      exact hresult hresult'
    · rw [hact.doing_other hne]
      exact h.result k ck hk hresult'
  · obtain ⟨c₀, hc₀, hlink₀⟩ := hact.linked hlink hk hlink'
    obtain ⟨hne, ⟨cp, hcp⟩, hnot⟩ := h.linked k c₀ parent hc₀ hlink₀
    exact ⟨hne, hact.exists_after hcp, fun id' hid' => hnot id' (hcalling hid').2⟩
  · obtain ⟨hne, hk⟩ := hcalling hk
    obtain ⟨hfree, hcallee, c', hc', hkeep⟩ := h.calling k callee hk
    have hne' : callee ≠ id := by
      rintro rfl
      rcases hid with hid | hid
      · exact hcallee hid
      · exact hid hfree
    exact ⟨(hact.doing_other hne').trans hfree, hact.current ▸ hcallee, c', (hact.other hne').trans hc', hkeep⟩
  · rcases hqueue callid k hk with ⟨rfl, hwaits, hnone⟩ | ⟨hne, hk⟩
    · rw [hact.doing_self]
      exact ⟨hwaits, c', hact.self, hnone⟩
    · rw [hact.doing_other hne, hact.other hne]
      exact h.queue callid k hk
  · rcases hconditions condition k hk with ⟨rfl, hwaits⟩ | ⟨hne, hk⟩
    · rw [hact.doing_self]
      exact hwaits
    · rw [hact.doing_other hne]
      exact h.conditions condition k hk

/-- It stays in the queues that it is in. -/
theorem Sound.act_same (h : s.Sound) (hact : Acts s t id c c' d) (hid : id = s.current ∨ s.doing id ≠ .free)
    (hqueue : t.queue = s.queue) (hconditions : t.conditions = s.conditions)
    (hd : ∀ callee, d ≠ .calling callee)
    (hlink : ∀ parent, c'.retLink = some parent → c.retLink = some parent)
    (hresult : c'.result ≠ none → MayHold d)
    (hasked : ∀ callid, s.queue callid = some id →
      (d = .asking callid ∨ d = .hosting callid) ∧ c'.result = none)
    (hwaits : ∀ condition, id ∈ s.conditions condition →
      d = .queued condition ∨ d = .sleeping (.wait condition)) : t.Sound := by
  refine h.act hact hid hd hlink hresult (fun callid k hk => ?_) (fun condition k hk => ?_)
    (hconditions ▸ h.distinct)
  · rw [hqueue] at hk
    by_cases hne : k = id
    · exact .inl ⟨hne, hasked callid (hne ▸ hk)⟩
    · exact .inr ⟨hne, hk⟩
  · rw [hconditions] at hk
    by_cases hne : k = id
    · exact .inl ⟨hne, hwaits condition (hne ▸ hk)⟩
    · exact .inr ⟨hne, hk⟩

/-- A context that does something else is in no queue. -/
theorem Sound.not_queue {callid : Nat} (h : s.Sound) (hasking : s.doing id ≠ .asking callid)
    (hhosting : s.doing id ≠ .hosting callid) : s.queue callid ≠ some id :=
  fun hid => (h.queue callid id hid).1.elim hasking hhosting

theorem Sound.not_condition {condition : Nat} (h : s.Sound) (hqueued : s.doing id ≠ .queued condition)
    (hsleeping : s.doing id ≠ .sleeping (.wait condition)) : id ∉ s.conditions condition :=
  fun hid => (h.conditions condition id hid).elim hqueued hsleeping

/-- The context that runs does something else. It is in no queue. -/
theorem Sound.act_idle (h : s.Sound) (hact : Acts s t s.current c c' d)
    (hbefore : ∀ callid condition, s.doing s.current ≠ .asking callid ∧
      s.doing s.current ≠ .hosting callid ∧ s.doing s.current ≠ .queued condition ∧
      s.doing s.current ≠ .sleeping (.wait condition))
    (hqueue : t.queue = s.queue) (hconditions : t.conditions = s.conditions)
    (hd : ∀ callee, d ≠ .calling callee)
    (hlink : ∀ parent, c'.retLink = some parent → c.retLink = some parent)
    (hresult : c'.result ≠ none → MayHold d) : t.Sound := by
  refine h.act_same hact (.inl rfl) hqueue hconditions hd hlink hresult (fun callid hid => ?_)
    fun condition hid => ?_
  · obtain ⟨hasking, hhosting, -⟩ := hbefore callid 0
    exact absurd hid (h.not_queue hasking hhosting)
  · obtain ⟨-, -, hqueued, hsleeping⟩ := hbefore 0 condition
    exact absurd hid (h.not_condition hqueued hsleeping)

/-- `switch` leaves the books alone. -/
theorem Sound.switched {now : Nat × Nat} {r : Bool} (h : s.Sound)
    (hs : s.sched.switch cpu now = .ok (r, t.sched)) (hdoing : t.doing = s.doing)
    (hqueue : t.queue = s.queue) (hconditions : t.conditions = s.conditions) : t.Sound := by
  refine h.reschedule hdoing hqueue (fun _ => hconditions ▸ .refl _) ?_
    (fun id hid => ?_) fun id c hc => ?_
  · obtain ⟨c, hc⟩ := h.current
    exact Scheduler.current_switch hs hc
  · have hsome := Scheduler.isSome_switch hs id
    rwa [hid, Option.isSome_none, Option.isSome_eq_false_iff, Option.isNone_iff_eq_none] at hsome
  · obtain ⟨c', hc', hswitched⟩ := Scheduler.switch_get hs hc
    refine ⟨c', hc', hswitched.retLink, hswitched.result, fun id' hcalling => ?_⟩
    obtain ⟨-, hne, c₀, hc₀, hstatus, hwake, -⟩ := h.calling id' id hcalling
    cases hc.symm.trans hc₀
    obtain ⟨hstatus', hwake', hid⟩ := hswitched.blocked hstatus fun wake hsome => by
      rw [hwake] at hsome
      cases hsome
    exact ⟨hstatus', hwake'.trans hwake, fun heq => hne (hid heq.symm).symm⟩

theorem Sound.switch {r : Bool} (h : s.Sound) (hs : s.switch cpu = .ok (r, s')) : s'.Sound := by
  obtain ⟨⟨r', sched⟩, hsched, heq⟩ := eq_ok_of_map hs
  cases heq
  exact h.switched hsched rfl rfl rfl

/-- A context is inserted if there is room, without a result, and with a link to the one that
runs or none. -/
theorem Sound.insert (h : s.Sound) (hresult : c.result = none)
    (hlink : ∀ parent, c.retLink = some parent → parent = s.current) :
    Sound { s with sched.contexts := (s.sched.contexts.insert c).2 } := by
  have hold : ∀ {k ck}, s.sched.get? k = some ck → (s.sched.contexts.insert c).2.map.get? k = some ck :=
    ContextList.inserted_old c
  refine ⟨?_, fun k hk => ?_, fun k ck hk hresult' => ?_, fun k ck parent hk hlink' => ?_,
    fun k callee hk => ?_, fun callid k hk => ?_, h.conditions, h.distinct⟩
  · obtain ⟨ck, hck⟩ := h.current
    exact ⟨ck, hold hck⟩
  · refine h.absent k (Option.eq_none_iff_forall_ne_some.mpr fun ck hck => ?_)
    cases hk.symm.trans (hold hck)
  · rcases ContextList.inserted_cases hk with ⟨-, rfl⟩ | hk
    · exact absurd hresult hresult'
    · exact h.result k ck hk hresult'
  · rcases ContextList.inserted_cases hk with ⟨hnone, rfl⟩ | hk
    · cases hlink parent hlink'
      obtain ⟨cp, hcp⟩ := h.current
      refine ⟨?_, ⟨cp, hold hcp⟩, fun id' hid' => (h.calling id' _ hid').2.1 rfl⟩
      rintro rfl
      cases hnone.symm.trans hcp
    · obtain ⟨hne, ⟨cp, hcp⟩, hnot⟩ := h.linked k ck parent hk hlink'
      exact ⟨hne, ⟨cp, hold hcp⟩, hnot⟩
  · obtain ⟨hfree, hne, c', hc', hkeep⟩ := h.calling k callee hk
    exact ⟨hfree, hne, c', hold hc', hkeep⟩
  · obtain ⟨hwaits, c', hc', hresult'⟩ := h.queue callid k hk
    exact ⟨hwaits, c', hold hc', hresult'⟩

/-- A callee that is inserted, or is not for want of room. -/
theorem Sound.insert_callee {r : Except String Nat} {contexts : ContextList} (h : s.Sound)
    (hinsert : s.sched.contexts.insert s.sched.callee = (r, contexts)) :
    Sound { s with sched.contexts := contexts } := by
  have hinserted := h.insert (c := s.sched.callee) rfl fun parent hparent => (Option.some.inj hparent).symm
  rwa [hinsert] at hinserted

/-- The callee of a fused call is inserted. -/
theorem Sound.call {contexts : ContextList} (h : s.Sound) (hdoing : s.doing s.current = .free)
    (hinsert : s.sched.contexts.insert s.sched.callee = (.ok id, contexts)) :
    { s with sched.contexts := contexts, doing := s.nowDoing (.calling id) }.Sound := by
  obtain ⟨hnone, hnew, -⟩ := ContextList.get?_insert hinsert
  obtain ⟨c₀, hc₀⟩ := h.current
  have hfresh : id ≠ s.current := (ContextList.insert_old hinsert hc₀).1.symm
  obtain ⟨hcurrent, habsent, hresult, hlinked, hcalling, hqueue, hconditions, hdistinct⟩ :=
    h.insert_callee hinsert
  -- Where a context other than the caller is found, it does what it did.
  have hdoing' : ∀ {k}, k ≠ s.current → s.nowDoing (.calling id) k = s.doing k := fun hk =>
    nowDoing_of_ne hk _
  have hbusy : ∀ {k}, s.doing k ≠ .free → s.nowDoing (.calling id) k = s.doing k := by
    refine fun hk => hdoing' ?_
    rintro rfl
    exact hk hdoing
  refine ⟨hcurrent, fun k hk => ?_, fun k ck hk hresult' => ?_, fun k ck parent hk hlink => ?_,
    fun k callee hk => ?_, fun callid k hk => ?_, fun condition k hk => ?_, hdistinct⟩
  · refine (hdoing' ?_).trans (habsent k hk)
    rintro rfl
    obtain ⟨c, hc⟩ := hcurrent
    cases hk.symm.trans hc
  · have hwhy : MayHold (s.doing k) := hresult k ck hk hresult'
    have hfree : s.doing k ≠ .free := by
      rcases hwhy with hwhy | hwhy | ⟨callid, hwhy⟩ | ⟨callid, hwhy⟩ <;> simp [hwhy]
    dsimp only
    rw [hbusy hfree]
    exact hwhy
  · obtain ⟨hne, hparent, hnot⟩ := hlinked k ck parent hk hlink
    refine ⟨hne, hparent, fun id' hid' => ?_⟩
    by_cases hne : id' = s.current
    · -- The new callee is in no link, since it was in the list of contexts of none.
      subst hne
      cases (nowDoing_self ..).symm.trans hid'
      rcases ContextList.insert_cases hinsert hk with ⟨-, rfl⟩ | hk
      · exact hfresh (Option.some.inj hlink).symm
      · obtain ⟨-, ⟨cp, hcp⟩, -⟩ := h.linked k ck id hk hlink
        cases hnone.symm.trans hcp
    · exact hnot id' ((hdoing' hne).symm.trans hid')
  · by_cases hne : k = s.current
    · subst hne
      cases (nowDoing_self ..).symm.trans hk
      exact ⟨(hdoing' hfresh).trans (h.absent id hnone), hfresh, _, hnew, rfl, rfl, rfl⟩
    · obtain ⟨hfree, hcallee, hrest⟩ := hcalling k callee ((hdoing' hne).symm.trans hk)
      exact ⟨(hdoing' hcallee).trans hfree, hcallee, hrest⟩
  · obtain ⟨hwaits, hrest⟩ := hqueue callid k hk
    have hwaits : s.doing k = .asking callid ∨ s.doing k = .hosting callid := hwaits
    dsimp only
    rw [hbusy (by rcases hwaits with hwaits | hwaits <;> simp [hwaits])]
    exact ⟨hwaits, hrest⟩
  · have hwaits := h.conditions condition k hk
    dsimp only
    rw [hbusy (by rcases hwaits with hwaits | hwaits <;> simp [hwaits])]
    exact hwaits

/-- `exit` marks the context that runs. -/
theorem Sound.exited (h : s.Sound) (hdoing : s.doing s.current = .free ∨ s.doing s.current = .leaving) :
    Sound { s with doing := s.nowDoing .exiting, sched := s.sched.exited } := by
  obtain ⟨c, hc⟩ := h.current
  exact h.act_idle (acts_of_modify hc rfl rfl) (by rcases hdoing with hd | hd <;> simp [hd]) rfl rfl
    (by simp) (by simp) (by simp [MayHold])

theorem Sound.exit {sched : Scheduler} {ticks : Nat} {trace : List Happening} (h : s.Sound)
    (hdoing : s.doing s.current = .free ∨ s.doing s.current = .leaving)
    (hsched : s.sched.exit cpu s.clock = .ok sched) :
    Sound { s with doing := s.nowDoing .exiting, sched, pitTicks := ticks, trace } := by
  have hexited := h.exited hdoing
  obtain ⟨c, hc, ⟨parent, hlink, rfl⟩ | ⟨-, -, hswitch⟩⟩ := Scheduler.exit_cases hsched
  · -- The parent has been switched to before, since it is linked to.
    obtain ⟨-, ⟨cp, hcp⟩, hnot⟩ := h.linked s.current c parent hc hlink
    have hget := Scheduler.get?_fuseReturn s.sched.exited s.current parent
    refine hexited.reschedule rfl rfl (fun _ => .refl _) ?_ (fun id hid => ?_) fun id c' hc' => ?_
    · have hparent : ∃ c', s.sched.exited.get? parent = some c' := by
        rw [Scheduler.get?_exited, hcp]
        split
        · exact ⟨_, rfl⟩
        · exact ⟨_, rfl⟩
      obtain ⟨c', hc'⟩ := hparent
      exact ⟨_, (hget parent).trans (by rw [hc']; rfl)⟩
    · exact (hget id).trans (by rw [show s.sched.exited.get? id = none from hid]; rfl)
    · refine ⟨_, (hget id).trans (congrArg _ hc'), rfl, rfl, fun id' hcalling => ?_⟩
      obtain ⟨hfree, hne, c₀, hc₀, hstatus, hwake, -⟩ := hexited.calling id' id hcalling
      cases hc'.symm.trans hc₀
      have hparent : id ≠ parent := by
        rintro rfl
        have hcalling : s.nowDoing .exiting id' = .calling id := hcalling
        by_cases hid' : id' = s.current
        · rw [hid', nowDoing_self] at hcalling
          cases hcalling
        · exact hnot id' ((nowDoing_of_ne hid' _).symm.trans hcalling)
      have hcurrent : id ≠ s.current := hne
      simp only [hparent, hcurrent, if_false, false_and]
      exact ⟨hstatus, hwake, hparent⟩
  · exact hexited.switched hswitch rfl rfl rfl

/-- `fuse_switch` leaves the call, which has now been switched to. -/
theorem Sound.fuseSwitch {callee ticks : Nat} {sched : Scheduler} {trace : List Happening} (h : s.Sound)
    (hdoing : s.doing s.current = .calling callee) (hsched : s.sched.fuseSwitch callee = .ok sched) :
    Sound { s with doing := s.nowDoing (.fusing callee), sched, pitTicks := ticks, trace } := by
  obtain ⟨c, hc⟩ := h.current
  obtain ⟨-, hne, cc, hcc, -, -, hlink⟩ := h.calling _ _ hdoing
  have hfusing : Sound { s with doing := s.nowDoing (.fusing callee) } :=
    h.act_idle (acts_of_eq hc rfl rfl) (by simp [hdoing]) rfl rfl (by simp) (fun _ hlink => hlink)
      fun hresult => absurd (h.result _ _ hc hresult) (by simp [hdoing])
  obtain ⟨caller, hcaller, rfl⟩ := Scheduler.fuseSwitch_cases hsched
  rw [hcc, Option.bind_some, hlink] at hcaller
  cases hcaller
  have hget := Scheduler.get?_fuseSwitch s.sched callee s.current
  refine hfusing.reschedule rfl rfl (fun _ => .refl _) ⟨_, (hget callee).trans (congrArg _ hcc)⟩
    (fun id hid => ?_) fun id c' hc' => ?_
  · exact (hget id).trans (congrArg _ hid)
  · refine ⟨_, (hget id).trans (congrArg _ hc'), rfl, rfl, fun id' hcalling => ?_⟩
    obtain ⟨-, hcurrent, c₀, hc₀, hstatus, hwake, hlink₀⟩ := hfusing.calling id' id hcalling
    cases hc'.symm.trans hc₀
    -- A callee is linked to the one context that calls it.
    have hcallee : id ≠ callee := by
      rintro rfl
      cases hcc.symm.trans hc₀
      cases hlink.symm.trans hlink₀
      cases (nowDoing_self s (.fusing id)).symm.trans hcalling
    have hcurrent : id ≠ s.current := hcurrent
    simp only [hcallee, hcurrent, if_false, false_and]
    exact ⟨hstatus, hwake, hcallee⟩

/-- The callee's result is taken. -/
theorem Sound.resume {callee : Nat} {c : Context} (h : s.Sound) (hdoing : s.doing s.current = .fusing callee)
    (hc : s.sched.get? callee = some c) (hresult : c.result ≠ none) :
    Sound { s with
      doing := s.nowDoing .free
      sched := s.sched.modify callee fun c => { c with result := none } } := by
  obtain ⟨c₀, hc₀⟩ := h.current
  have hfree : Sound { s with doing := s.nowDoing .free } :=
    h.act_idle (acts_of_eq hc₀ rfl rfl) (by simp [hdoing]) rfl rfl (by simp) (fun _ hlink => hlink)
      fun hresult => absurd (h.result _ _ hc₀ hresult) (by simp [hdoing])
  have hwhy : MayHold (s.nowDoing .free callee) := hfree.result callee c hc hresult
  refine hfree.act_same (acts_of_modify hc rfl (Function.update_eq_self ..).symm) (.inr fun hid => ?_) rfl rfl
    (fun x heq => ?_) (fun _ hlink => hlink) (fun hnone => absurd rfl hnone)
    (fun callid hid => ⟨(hfree.queue callid callee hid).1, rfl⟩)
    (fun condition hid => hfree.conditions condition callee hid)
  · rcases hwhy with hwhy | hwhy | ⟨_, hwhy⟩ | ⟨_, hwhy⟩ <;> cases hwhy.symm.trans hid
  · rcases hwhy with hwhy | hwhy | ⟨_, hwhy⟩ | ⟨_, hwhy⟩ <;> cases hwhy.symm.trans heq

theorem Sound.ask {callid : Nat} (h : s.Sound) (hdoing : s.doing s.current = .free) :
    Sound { s with
      doing := s.nowDoing (.asking callid)
      queue := Function.update s.queue callid (some s.current) } := by
  obtain ⟨c, hc⟩ := h.current
  have hresult : c.result = none := by
    by_contra hresult
    have hwhy := h.result _ _ hc hresult
    simp [hdoing] at hwhy
  refine h.act (acts_of_eq hc rfl rfl) (.inl rfl) (by simp) (fun _ hlink => hlink)
    (fun hsome => absurd hresult hsome) (fun callid' k hk => ?_) (fun condition k hk => .inr ⟨?_, hk⟩)
    h.distinct
  · rcases update_eq_cases hk with ⟨rfl, heq⟩ | ⟨-, hk⟩
    · exact .inl ⟨(Option.some.inj heq).symm, .inl rfl, hresult⟩
    · refine .inr ⟨?_, hk⟩
      rintro rfl
      exact h.not_queue (by simp [hdoing]) (by simp [hdoing]) hk
  · rintro rfl
    exact h.not_condition (by simp [hdoing]) (by simp [hdoing]) hk

theorem Sound.check {callid : Nat} (h : s.Sound) (hdoing : s.doing s.current = .asking callid) :
    Sound { s with
      doing := s.nowDoing (.hosting callid)
      sched := s.sched.modify s.current fun c =>
        if c.result = none then { c with status := .blocked } else c } := by
  obtain ⟨c, hc⟩ := h.current
  have hfields : (if c.result = none then { c with status := .blocked } else c).retLink = c.retLink ∧
      (if c.result = none then { c with status := .blocked } else c).result = c.result := by
    split
    · exact ⟨rfl, rfl⟩
    · exact ⟨rfl, rfl⟩
  refine h.act_same (acts_of_modify hc rfl rfl) (.inl rfl) rfl rfl (by simp)
    (fun parent hlink => hfields.1 ▸ hlink) (fun _ => .inr (.inr (.inr ⟨callid, rfl⟩))) (fun callid' hid => ?_)
    (fun condition hid => absurd hid (h.not_condition (by simp [hdoing]) (by simp [hdoing])))
  obtain ⟨hwaits, c', hc', hresult⟩ := h.queue callid' s.current hid
  cases hc.symm.trans hc'
  rcases hwaits with hwaits | hwaits
  · cases hdoing.symm.trans hwaits
    exact ⟨.inr rfl, hfields.2.trans hresult⟩
  · cases hdoing.symm.trans hwaits

theorem Sound.leave {callid : Nat} {c : Context} (h : s.Sound) (hdoing : s.doing s.current = .hosting callid)
    (hc : s.sched.get? s.current = some c) (hresult : c.result ≠ none) :
    Sound { s with
      doing := s.nowDoing .free
      sched := s.sched.modify s.current fun c => { c with result := none } } := by
  refine h.act_same (acts_of_modify hc rfl rfl) (.inl rfl) rfl rfl (by simp) (fun _ hlink => hlink)
    (fun hsome => absurd rfl hsome) (fun callid' hid => ?_)
    (fun condition hid => absurd hid (h.not_condition (by simp [hdoing]) (by simp [hdoing])))
  obtain ⟨-, c', hc', hnone⟩ := h.queue callid' s.current hid
  cases hc.symm.trans hc'
  exact absurd hnone hresult

theorem Sound.deliver {callid id : Nat} {values : List UInt8} {trace : List Happening} (h : s.Sound)
    (hqueue : s.queue callid = some id) :
    Sound { s with
      sched := s.sched.modify id fun c => { c with result := some values }.unblock.2
      queue := Function.update s.queue callid none
      trace } := by
  obtain ⟨hwaits, c, hc, hnone⟩ := h.queue callid id hqueue
  have hwhy : MayHold (s.doing id) :=
    .inr (.inr (hwaits.imp (fun h => ⟨callid, h⟩) fun h => ⟨callid, h⟩))
  refine h.act (acts_of_modify hc rfl (Function.update_eq_self ..).symm) (.inr ?_) (fun x heq => ?_)
    (fun parent hlink => ?_) (fun _ => hwhy) (fun callid' k hk => ?_) (fun condition k hk => ?_) h.distinct
  · rcases hwaits with hwaits | hwaits <;> simp [hwaits]
  · rcases hwaits with hwaits | hwaits <;> cases hwaits.symm.trans heq
  · rw [Scheduler.unblock_eq] at hlink
    exact hlink
  · rcases update_eq_cases hk with ⟨-, hnone⟩ | ⟨hne, hbefore⟩
    · cases hnone
    · refine .inr ⟨?_, hbefore⟩
      -- A context waits for one call at a time.
      rintro rfl
      rcases hwaits with hwaits | hwaits <;> rcases (h.queue callid' k hbefore).1 with hwaits' | hwaits' <;>
        cases hwaits.symm.trans hwaits' <;> exact hne rfl
  · by_cases hid : k = id
    · subst hid
      exact .inl ⟨rfl, h.conditions condition k hk⟩
    · exact .inr ⟨hid, hk⟩

theorem Sound.sysReturn {values : List UInt8} (h : s.Sound) (hdoing : s.doing s.current = .free) :
    Sound { s with
      doing := s.nowDoing .leaving
      sched := s.sched.modify s.current fun c => { c with result := some values } } := by
  obtain ⟨c, hc⟩ := h.current
  exact h.act_idle (acts_of_modify hc rfl rfl) (by simp [hdoing]) rfl rfl (by simp) (fun _ hlink => hlink)
    fun _ => .inl rfl

theorem Sound.sleep {sleep : Sleep} {trace : List Happening} (h : s.Sound)
    (hdoing : s.doing s.current = .free) :
    Sound { s with
      doing := s.nowDoing (.entering sleep)
      sched := s.sched.modify s.current fun c => sleep.enter c
      trace } := by
  obtain ⟨c, hc⟩ := h.current
  refine h.act_idle (acts_of_modify hc rfl rfl) (by simp [hdoing]) rfl rfl (by simp) (fun parent hlink => ?_)
    fun hresult => ?_
  · rw [Sleep.enter_eq] at hlink
    exact hlink
  · rw [Sleep.enter_eq] at hresult
    exact absurd (h.result _ _ hc hresult) (by simp [hdoing])

theorem Sound.distinct_update {condition : Nat} {ids : List Nat} (h : s.Sound) (hids : ids.Nodup)
    (condition' : Nat) : (Function.update s.conditions condition ids condition').Nodup := by
  rw [Function.update_apply]
  split
  · exact hids
  · exact h.distinct condition'

theorem Sound.push {condition : Nat} (h : s.Sound) (hdoing : s.doing s.current = .entering (.wait condition)) :
    Sound { s with
      doing := s.nowDoing (.queued condition)
      conditions := Function.update s.conditions condition (s.conditions condition ++ [s.current]) } := by
  obtain ⟨c, hc⟩ := h.current
  have hnot : ∀ condition', s.current ∉ s.conditions condition' := fun condition' =>
    h.not_condition (by simp [hdoing]) (by simp [hdoing])
  refine h.act (acts_of_eq hc rfl rfl) (.inl rfl) (by simp) (fun _ hlink => hlink)
    (fun hresult => absurd (h.result _ _ hc hresult) (by simp [hdoing]))
    (fun callid k hk => .inr ⟨?_, hk⟩) (fun condition' k hk => ?_) (h.distinct_update ?_)
  · rintro rfl
    exact h.not_queue (by simp [hdoing]) (by simp [hdoing]) hk
  · have hbefore : k ∈ s.conditions condition' → k ≠ s.current := by
      rintro hmem rfl
      exact hnot condition' hmem
    simp only [Function.update_apply] at hk
    split at hk
    · next heq =>
      subst heq
      rcases List.mem_append.mp hk with hk | hk
      · exact .inr ⟨hbefore hk, hk⟩
      · exact .inl ⟨List.mem_singleton.mp hk, .inl rfl⟩
    · exact .inr ⟨hbefore hk, hk⟩
  · exact List.nodup_append.mpr ⟨h.distinct condition, List.pairwise_singleton _ _, fun k hk k' hk' heq =>
      hnot condition (List.mem_singleton.mp hk' ▸ heq ▸ hk)⟩

/-- A call that sleeps is about to call `switch`. -/
theorem Sound.sleeping {sleep : Sleep} (h : s.Sound) (hdoing : s.doing s.current = .entering sleep ∨
    ∃ condition, sleep = .wait condition ∧ s.doing s.current = .queued condition) :
    Sound { s with doing := s.nowDoing (.sleeping sleep) } := by
  obtain ⟨c, hc⟩ := h.current
  have hsleep : (s.doing s.current).sleep = some sleep := by
    rcases hdoing with hdoing | ⟨condition, rfl, hdoing⟩ <;> rw [hdoing] <;> rfl
  refine h.act_same (acts_of_eq hc rfl rfl) (.inl rfl) rfl rfl (by simp) (fun _ hlink => hlink)
    (fun hresult => ?_) (fun callid hid => ?_) (fun condition' hid => ?_)
  · rcases h.result _ _ hc hresult with hwhy | hwhy | ⟨_, hwhy⟩ | ⟨_, hwhy⟩ <;> rw [hwhy] at hsleep <;>
      cases hsleep
  · rcases (h.queue callid _ hid).1 with hwhy | hwhy <;> rw [hwhy] at hsleep <;> cases hsleep
  · rcases h.conditions condition' _ hid with hwhy | hwhy <;> rw [hwhy] at hsleep <;> cases hsleep <;>
      exact .inr rfl

theorem Sound.wakeUp {wake : Nat × Nat} {trace : List Happening} (h : s.Sound)
    (hdoing : s.doing s.current = .sleeping (.nanosleep wake)) :
    Sound { s with doing := s.nowDoing .free, trace } := by
  obtain ⟨c, hc⟩ := h.current
  exact h.act_idle (acts_of_eq hc rfl rfl) (by simp [hdoing]) rfl rfl (by simp) (fun _ hlink => hlink)
    fun hresult => absurd (h.result _ _ hc hresult) (by simp [hdoing])

/-- `wait` takes its context out of the condition. -/
theorem Sound.waited {condition : Nat} {trace : List Happening} (h : s.Sound)
    (hdoing : s.doing s.current = .sleeping (.wait condition)) :
    Sound { s with
      doing := s.nowDoing .free
      conditions := Function.update s.conditions condition ((s.conditions condition).erase s.current)
      trace } := by
  obtain ⟨c, hc⟩ := h.current
  refine h.act (acts_of_eq hc rfl rfl) (.inl rfl) (by simp) (fun _ hlink => hlink)
    (fun hresult => absurd (h.result _ _ hc hresult) (by simp [hdoing]))
    (fun callid k hk => .inr ⟨?_, hk⟩) (fun condition' k hk => .inr ?_)
    (h.distinct_update ((h.distinct condition).erase _))
  · rintro rfl
    exact h.not_queue (by simp [hdoing]) (by simp [hdoing]) hk
  · simp only [Function.update_apply] at hk
    split at hk
    · next heq =>
      subst heq
      refine ⟨?_, List.mem_of_mem_erase hk⟩
      rintro rfl
      exact (h.distinct condition').not_mem_erase hk
    · next hne =>
      refine ⟨?_, hk⟩
      rintro rfl
      exact h.not_condition (by simp [hdoing]) (by simp [hdoing, Ne.symm hne]) hk

theorem Sound.notify {condition : Nat} {trace : List Happening} (h : s.Sound) :
    Sound { s with
      sched := s.sched.unblockAll (s.conditions condition)
      conditions := Function.update s.conditions condition []
      trace } := by
  have hget := Scheduler.get?_unblockAll s.sched (s.conditions condition)
  have hcurrent := Scheduler.contextId_unblockAll s.sched (s.conditions condition)
  obtain ⟨c, hc⟩ := h.current
  refine h.reschedule rfl rfl (fun condition' => ?_) ?_ (fun id hid => (hget id).trans (congrArg _ hid))
    fun id c' hc' => ?_
  · simp only [Function.update_apply]
    split
    · exact List.nil_sublist _
    · exact .refl _
  · refine ⟨_, (congrArg _ hcurrent).trans ((hget s.current).trans (congrArg _ hc))⟩
  · refine ⟨_, (hget id).trans (congrArg _ hc'), rfl, rfl, fun id' hcalling => ?_⟩
    obtain ⟨hfree, hne, c₀, hc₀, hstatus, hwake, -⟩ := h.calling id' id hcalling
    cases hc'.symm.trans hc₀
    have hnot : id ∉ s.conditions condition := h.not_condition (by simp [hfree]) (by simp [hfree])
    simp only [hnot, false_and, if_false]
    exact ⟨hstatus, hwake, fun heq => hne (heq.trans hcurrent)⟩

/-- The books are about the contexts, not about the time. -/
theorem Sound.tick (h : s.Sound) : s.tick.Sound := by
  obtain ⟨hsched, hdoing, hqueue, hconditions⟩ := tick_fields s
  refine ⟨?_, ?_, ?_, ?_, ?_, ?_, ?_, ?_⟩
  all_goals simp only [Cpu.current, hsched, hdoing, hqueue, hconditions]
  exacts [h.current, h.absent, h.result, h.linked, h.calling, h.queue, h.conditions, h.distinct]

/-- **Every move keeps the books right.** -/
theorem Sound.step (h : s.Sound) (hmove : s.Moves cpu a s') : s'.Sound := by
  cases hmove with
  | tick => exact h.tick
  | pit hswitch => exact h.tick.switch hswitch
  | yield _ hswitch => exact h.switch hswitch
  | call hfree hinsert => exact h.call hfree hinsert
  | full hinsert => exact h.insert_callee hinsert
  | fuseSwitch hcalling hsched => exact h.fuseSwitch hcalling hsched
  | resume hfusing hc hresult => exact h.resume hfusing hc hresult
  | sysReturn hfree => exact h.sysReturn hfree
  | exit hdoing hsched => exact h.exit hdoing hsched
  | cast => exact h.insert rfl nofun
  | ask hfree => exact h.ask hfree
  | check hasking => exact h.check hasking
  | leave hhosting hc _ hresult => exact h.leave hhosting hc hresult
  | deliver hqueue => exact h.deliver hqueue
  | sleep hfree hc => exact h.sleep hfree
  | sleepFailed _ => exact h
  | push hentering => exact h.push hentering
  | sleepSwitch hdoing hswitch => exact (h.sleeping hdoing).switch hswitch
  | wakeUp hsleeping => exact h.wakeUp hsleeping
  | waited hsleeping => exact h.waited hsleeping
  | notify => exact h.notify

end Sound

/-- **A context waits for one thing**, in whatever order contexts call, sleep and are woken: for one
answer of the host or on one condition, and there once. -/
theorem waits_for_one {cpu : Nat} {s : Cpu} (run : ReflTransGen (Step cpu) (boot cpu) s) :
    (∀ id callid callid', s.queue callid = some id → s.queue callid' = some id → callid = callid') ∧
    (∀ id k k', id ∈ s.conditions k → id ∈ s.conditions k' → k = k') ∧
    (∀ id callid k, s.queue callid = some id → id ∉ s.conditions k) ∧
    ∀ k, (s.conditions k).Nodup := by
  have h : s.Sound := invariant_of_step Sound run (sound_boot cpu) fun _ _ h ⟨_, hperform⟩ =>
    h.step (moves_of_perform hperform)
  refine ⟨fun id callid callid' hq hq' => ?_, fun id k k' hk hk' => ?_, fun id callid k hq hk => ?_,
    h.distinct⟩
  · rcases (h.queue _ _ hq).1 with hd | hd <;> rcases (h.queue _ _ hq').1 with hd' | hd' <;>
      cases hd.symm.trans hd' <;> rfl
  · rcases h.conditions _ _ hk with hd | hd <;> rcases h.conditions _ _ hk' with hd' | hd' <;>
      cases hd.symm.trans hd' <;> rfl
  · rcases (h.queue _ _ hq).1 with hd | hd <;> rcases h.conditions _ _ hk with hd' | hd' <;>
      cases hd.symm.trans hd'

/-- The main thread waits for the answer to call 5. -/
theorem main_waits_for_host : ∃ s, ReflTransGen (Step 0) (boot 0) s ∧ s.queue 5 = some 1 ∧
    ∀ callid, s.queue callid = some 1 → callid = 5 := by
  have hrun : (runMoves 0 (fun _ _ => true) (boot 0) [.ask 5, .check]).map (·.queue 5) = some (some 1) := by
    decide +kernel
  obtain ⟨s, hs, hqueue⟩ := Option.map_eq_some_iff.mp hrun
  have hreach : ReflTransGen (Step 0) (boot 0) s := reaches_of_runMoves (fun _ a _ _ hperform => ⟨a, hperform⟩) hs
  exact ⟨s, hreach, hqueue, fun callid h => (waits_for_one hreach).1 1 callid 5 h hqueue⟩

end Cpu

end Faastr.Sched
