import Faastr.Sos.Forward
import Faastr.Spaces.NewSpace

/-!
Passing arguments to a new context: `fuse_inner` and `cast_inner`
(`kernel/src/context/call.rs`) call `append_encode` on the arguments of the context that
`spawn` made, while the caller's page table is active.

* `Passes`: the callee finds its arguments, no frame is given back while it is mapped,
  and no other page table changes.
* `passes_iff`: this is so exactly when the arguments fit into the page that `spawn`
  mapped. When they do not, `resize` works on the active page table, which is the
  caller's.
-/

namespace Faastr.Spaces

open Faastr.Lib Faastr.Memory Faastr.Paging

/-- Passing arguments touches the address space of the callee only. -/
def Passes (c : Context) (args : Sos) (s : System) : Prop :=
  ∃ address values s', (c.args.appendEncode args).run s = .ok ((address, values), s') ∧
    (∃ m, values.memory = some m ∧ ∀ k, k < m.frames.count → ∃ flags,
      s'.lookup c.pageTable (m.contextAddress / pageSize + k) = some (m.frames.start + k, flags)) ∧
    (∃ freed, s'.deallocated = s.deallocated ++ freed ∧
      ∀ f ∈ freed, ∀ table page flags, s'.user table page ≠ some (f, flags)) ∧
    ∀ table page, table ≠ c.pageTable ∨ table = s.cr3 → s'.lookup table page = s.lookup table page

section Append

variable {m : ContextMemory} {args : Sos} {s : System}

/-- Arguments that fit are written in place. -/
theorem appendEncode_fits (hm : Fresh 1 m s) (hfits : args.encodedLen ≤ pageSize) :
    ∃ address memory, (ContextValues.appendEncode ⟨some m, 0⟩ args).run s =
      .ok ((address, ⟨some m, args.encodedLen⟩), { s with memory }) := by
  obtain ⟨v, hv, hframes, hwritable⟩ := hm.mapped
  have hroom : args.encodedLen ≤ (m.lenBytes + 2 ^ 64 - 0) % 2 ^ 64 := by
    rw [ContextMemory.lenBytes, hm.count]
    simp only [pageSize] at *
    omega
  have hlen : 0 + args.encodedLen ≤ v.len := by
    rw [VallocMapping.len, hframes, hm.count]
    omega
  have hgrow := @ContextValues.grow_run_of_room ⟨some m, 0⟩ m args s hroom
  obtain ⟨out, n, -, hrun⟩ :=
    ContextValues.appendEncode_run rfl hgrow hv hm.unshared hwritable hlen
  rw [Nat.zero_add] at hrun
  exact ⟨_, _, hrun⟩

/-- Arguments that do not fit are put into new frames, and the tables of other contexts
stay as they are. -/
theorem grow_replaces (hs : s.Sound) (hm : Fresh 1 m s) (hgrows : pageSize < args.encodedLen) :
    Ensures (ContextValues.grow ⟨some m, 0⟩ m args.encodedLen) s fun m' s' =>
      Local s s' ∧ ContextMemory.Replaces m m' s ∧
      (∀ v, m'.vallocMapping = some v → v.frames = m'.frames) ∧
      ∀ page e, m.contextMapped = false → userPages ≤ page → m.contextAddress = page * pageSize →
        s.kernel page = some e → m'.frames.count = 0 := by
  have hroom : (m.lenBytes + 2 ^ 64 - 0) % 2 ^ 64 < args.encodedLen := by
    rw [ContextMemory.lenBytes, hm.count]
    simp only [pageSize] at *
    omega
  rw [ContextValues.grow, if_pos hroom]
  refine .seq ((ContextMemory.resize_spec hs).and ContextMemory.resize_shape) fun o s₁ h =>
    ensures_orPanic fun m' hm' => ?_
  obtain ⟨hresize, hshape⟩ := h
  obtain ⟨hreplaces, hkernel⟩ := hresize.2 m' hm'
  exact ⟨hresize.1, hreplaces, (hshape m' hm').2, fun page e => hkernel page e (hm.count ▸ Nat.one_pos)⟩

theorem appendEncode_grows (hs : s.Sound) (hm : Fresh 1 m s) (hgrows : pageSize < args.encodedLen) :
    Ensures (ContextValues.appendEncode ⟨some m, 0⟩ args) s fun r s' => Local s s' ∧
      ∃ m', r.2.memory = some m' ∧ m'.contextAddress = m.contextAddress ∧ 0 < m'.frames.count ∧
        s.Loose m'.frames.start ∧ ∀ page e, m.contextMapped = false → userPages ≤ page →
          m.contextAddress = page * pageSize → s.kernel page ≠ some e := by
  refine .bind (ensures_orPanic ?_)
  rintro _ ⟨⟩
  refine .seq (grow_replaces hs hm hgrows) fun m' s₁ ⟨hloc, hreplaces, hframes, hkernel⟩ => ?_
  refine .seq ContextMemory.asSliceMut_spec fun v s₂ ⟨hs₂, hv⟩ => ?_
  refine .seq VallocMapping.read_spec fun slice s₃ ⟨hs₃, _, hlen⟩ => ?_
  subst hs₂ hs₃
  have hpos : 0 < m'.frames.count := by
    rw [VallocMapping.len, hframes v hv, Nat.zero_add] at hlen
    exact Nat.pos_of_mul_pos_right (Nat.lt_of_lt_of_le (Nat.zero_lt_of_lt hgrows) hlen)
  split
  · refine .seq VallocMapping.fill_spec fun _ s₄ hwrites => .pure ⟨?_, m', rfl, hreplaces.address,
      hpos, hreplaces.loose hpos, ?_⟩
    · exact trans_of Local hloc hwrites.extends.toLocal
    · intro page e hunmapped huser haddress he
      exact hpos.ne' (hkernel page e hunmapped huser haddress he)
  · exact .throw _

end Append

/-- **Arguments stay in the callee's address space exactly when they fit into its first
page.** -/
theorem passes_iff {m : Module} {c : Context} {s s' : System} (hs : s.Running)
    (hspawn : (spawn m).run s = .ok (.ok c, s')) (args : Sos) :
    Passes c args s' ↔ args.encodedLen ≤ pageSize := by
  obtain ⟨hsound, hrecursive, memory, page, hargs, hfresh, haddress, ⟨flags, hlookup⟩, hcase⟩ :=
    spawn_ready hs m _ _ hspawn c rfl
  constructor
  · rintro ⟨address, values, s₁, hrun, ⟨m', hm', hmap⟩, -, -⟩
    by_contra hgrows
    rw [hargs] at hrun
    obtain ⟨hloc, _, hm₁, haddress', hpos, hloose, hkernel⟩ :=
      appendEncode_grows hsound hfresh (Nat.lt_of_not_le hgrows) _ _ hrun
    cases hm'.symm.trans hm₁
    rcases hcase with ⟨huser, hne⟩ | ⟨hkernelPage, hunmapped⟩
    · -- The table of the callee still leads to the old frame, which was taken.
      obtain ⟨flags', hnew⟩ := hmap 0 hpos
      rw [haddress', haddress, Nat.mul_div_cancel page (by decide), Nat.add_zero, System.lookup,
        if_pos huser, hloc.others _ (hrecursive ▸ hne)] at hnew
      rw [System.lookup, if_pos huser, hnew] at hlookup
      have hframe : m'.frames.start = memory.frames.start := by
        simpa using congrArg (Option.map Prod.fst) hlookup
      exact hfresh.owned 0 Nat.one_pos (hframe ▸ hloose)
    · rw [System.lookup, if_neg (by omega)] at hlookup
      exact hkernel page _ hunmapped hkernelPage haddress hlookup
  · intro hfits
    obtain ⟨address, bytes, hrun⟩ := appendEncode_fits hfresh hfits
    rw [← hargs] at hrun
    refine ⟨address, _, _, hrun, ⟨memory, rfl, ?_⟩, ⟨[], by simp, by simp⟩, fun _ _ _ => rfl⟩
    intro k hk
    have hk0 : k = 0 := by
      rw [hfresh.count] at hk
      omega
    rw [hk0, haddress, Nat.mul_div_cancel page (by decide)]
    exact ⟨flags, hlookup⟩

/-! ### A call with a long argument -/

/-- A caller in table 1, whose own arguments are in frame 7, with another page some way behind them;
frames 2 to 4 are the tables on the way to both. -/
def sampleSystem : System where
  user table page :=
    if table = 1 then
      if page = userArgOffset / pageSize then some (7, userFlags)
      else if page = userArgOffset / pageSize + 8 then some (8, userFlags) else none
    else none
  kernel _ := none
  cr3 := 1
  recursive := 1
  frames := .firstFit 1000 256 64
  tables id := ((path 1 (userArgOffset / pageSize)).zip [2, 3, 4]).lookup id
  deallocated := []
  pages := .firstFit userPages 1 1000
  memory _ := 0

theorem sampleSystem_running : sampleSystem.Running := by
  have htables : ∀ id f, sampleSystem.tables id = some f →
      (id, f) ∈ (path 1 (userArgOffset / pageSize)).zip [2, 3, 4] := by
    intro id f h
    obtain ⟨l, l', hl, -⟩ := List.lookup_eq_some_iff.mp h
    rw [hl]
    simp
  have htaken : ∀ id f, sampleSystem.tables id = some f → sampleSystem.frames.free f = false := by
    intro id f h
    have hf := (List.of_mem_zip (htables id f h)).2
    simp only [List.mem_cons, List.not_mem_nil, or_false] at hf
    rcases hf with rfl | rfl | rfl <;> rfl
  refine ⟨⟨fun _ hpage => of_decide_eq_true hpage, htaken, fun id id' f h h' => ?_⟩, rfl, ?_⟩
  · exact congrArg Prod.fst (List.inj_on_of_nodup_map (f := Prod.snd) (by decide) (htables id f h)
      (htables id' f h') rfl)
  · rintro (hfree | ⟨id, hid⟩)
    · cases hfree
    · have hf := (List.of_mem_zip (htables id _ hid)).2
      simp [sampleSystem] at hf

/-- Arguments that are forwarded, as `sys_fuse` does. -/
def forwarded (it : Faastr.Sos.DecodeIter) : Sos where
  encodedLen := it.encodedLen
  encode := it.encode
  exact _ h := ⟨_, _, it.encode_exact h⟩

/-- One opaque value of 5000 bytes, tag and length included. -/
def longArgument : Sos :=
  forwarded ⟨1, [9] ++ leBytes 4 4995 ++ List.replicate 4995 0xff, false⟩

/-- The callee's table still leads to frame 3048, which was given back, and it is the
caller who finds the arguments, in place of its own. -/
theorem long_argument_misplaced : ∃ c s r s', (spawn (.image [])).run sampleSystem = .ok (.ok c, s) ∧
    (c.args.appendEncode longArgument).run s = .ok (r, s') ∧
    s'.user c.pageTable (userArgOffset / pageSize) = some (3048, userFlags) ∧
    s'.deallocated = s.deallocated ++ [3048] ∧
    s'.user 1 (userArgOffset / pageSize) = some (6120, userFlags) ∧
    ¬ Passes c longArgument s := by
  have heval : finds (spawn (.image [])) sampleSystem (fun r s => r.toOption.any fun c =>
      finds (c.args.appendEncode longArgument) s fun _ s' =>
        s'.user c.pageTable (userArgOffset / pageSize) = some (3048, userFlags) ∧
        s'.deallocated = s.deallocated ++ [3048] ∧
        s'.user 1 (userArgOffset / pageSize) = some (6120, userFlags)) = true := by
    decide +kernel
  obtain ⟨o, s, hspawn, htest⟩ := exists_of_finds heval
  cases o with
  | error e => cases htest
  | ok c =>
    obtain ⟨r, s', hrun, htest⟩ := exists_of_finds htest
    obtain ⟨hcallee, hfreed, hcaller⟩ := of_decide_eq_true htest
    refine ⟨c, s, r, s', hspawn, hrun, hcallee, hfreed, hcaller, ?_⟩
    rintro ⟨address, values, s₁, hrun₁, -, ⟨freed, hfreed₁, hunmapped⟩, -⟩
    cases hrun.symm.trans hrun₁
    have hmem : 3048 ∈ freed := by
      rw [List.append_cancel_left (hfreed₁.symm.trans hfreed)]
      exact List.mem_singleton_self 3048
    exact hunmapped 3048 hmem _ _ _ hcallee

/-- An argument of one byte is passed to a context of the kernel. -/
theorem short_argument_passes : ∃ c s, (spawn .kernel).run sampleSystem = .ok (.ok c, s) ∧
    Passes c (forwarded ⟨1, [0], false⟩) s := by
  have heval : finds (spawn .kernel) sampleSystem (fun r _ => r.toOption.isSome) = true := by
    decide +kernel
  obtain ⟨o, s, hspawn, htest⟩ := exists_of_finds heval
  cases o with
  | error e => cases htest
  | ok c => exact ⟨c, s, hspawn, (passes_iff sampleSystem_running hspawn _).mpr (by decide)⟩

end Faastr.Spaces
