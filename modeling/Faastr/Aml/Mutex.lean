import Faastr.Aml.Context

/-!
Nested AML mutexes (`acquire_mutex` and `release_mutex` of `acpi/aml/parser.rs`).

A context takes mutexes of rising sync levels and gives them back in reverse
order (`Nested`). Acquiring sets the context's sync level to the mutex's, and a
release asks for that same level but does not lower it again.

* What an acquire and a release of such a sequence do (`acquire_free`,
  `release_held`).
* The sequence succeeds and leaves everything as it was exactly when every
  mutex in it has the sync level the context started with, and no context takes
  or frees another's mutex, whatever it calls (`mutexes_released_iff`).
-/

namespace Faastr.Aml

open AmlExecutionContext

/-- A call on the mutex of a name, given as a string or as a reference. -/
inductive MutexOp
  | acquire (name : Str) (byRef : Bool)
  | release (name : Str) (byRef : Bool)

def MutexOp.name : MutexOp → Str
  | .acquire name _ | .release name _ => name

def mutexPtr (name : Str) (byRef : Bool) : AmlValue :=
  if byRef then .ObjectReference (.Object name) else .String name

/-- The machine after a call that does what is asked: an acquire returns
`Ok(true)`, a release `Ok`. -/
def MutexOp.run (m : Machine) : MutexOp → Option Machine
  | .acquire name byRef =>
    match (acquireMutex (mutexPtr name byRef)).exec m with
    | .ok (.ok true, m') => some m'
    | _ => none
  | .release name byRef =>
    match (releaseMutex (mutexPtr name byRef)).exec m with
    | .ok (.ok _, m') => some m'
    | _ => none

def runMutexOps (ops : List MutexOp) (m : Machine) : Option Machine := ops.foldlM MutexOp.run m

/-- The sync level of a mutex. -/
def levelOf (objects : Namespace) (name : Str) : UInt8 :=
  match objects name with
  | some (.Mutex level _) => level
  | _ => 0

def IsFree (objects : Namespace) (name : Str) : Prop :=
  objects name = some (.Mutex (levelOf objects name) none)

/-- Calls that go on from the mutexes held, the last one first: one that is not
held is acquired, its level not below theirs, or the last one is released; in
the end none is held. -/
inductive Nested (level : Str → UInt8) : List Str → List MutexOp → Prop
  | done : Nested level [] []
  | acquire {name : Str} {byRef : Bool} {held : List Str} {ops : List MutexOp} :
      name ∉ held → (∀ h ∈ held, level h ≤ level name) → Nested level (name :: held) ops →
      Nested level held (.acquire name byRef :: ops)
  | release {name : Str} {byRef : Bool} {held : List Str} {ops : List MutexOp} :
      Nested level held ops → Nested level (name :: held) (.release name byRef :: ops)

/-! ### One call -/

theorem exec_pointed {m : Machine} {objects : Namespace} {name : Str} {object : AmlValue}
    (hobjects : m.acpi.objects = some objects) (hlock : m.acpi.locked = false)
    (hobject : objects name = some object) (byRef : Bool) :
    (pointed (mutexPtr name byRef)).exec m = .ok (.ok (objects, name, object), m) := by
  have hlocked : lockedNamespace.exec m = .ok (.ok (some objects), m) := by
    rw [lockedNamespace, Interp.exec_bind_ok Interp.exec_get, hlock, hobjects]
    rfl
  have hname : (liftM (pointedName (mutexPtr name byRef)) : Interp Str).exec m = .ok (.ok name, m) := by
    cases byRef <;> rfl
  rw [pointed, Interp.exec_bind_ok hlocked]
  dsimp only
  rw [Interp.exec_bind_ok hname, hobject]
  rfl

/-- The machine with a mutex of this level taken. -/
def Machine.taken (m : Machine) (objects : Namespace) (name : Str) (level : UInt8) : Machine :=
  let m := m.insert objects name (.Mutex level (some m.ctx.ctxId))
  { m with ctx := { m.ctx with syncLevel := level } }

theorem acquire_free {m : Machine} {objects : Namespace} {name : Str} {level : UInt8}
    (hobjects : m.acpi.objects = some objects) (hlock : m.acpi.locked = false)
    (hmutex : objects name = some (.Mutex level none)) (byRef : Bool) :
    (MutexOp.acquire name byRef).run m =
      if level < m.ctx.syncLevel then none else some (m.taken objects name level) := by
  have hpointed := exec_pointed hobjects hlock hmutex byRef
  simp only [MutexOp.run, acquireMutex]
  rw [Interp.exec_bind_ok Interp.exec_get, Interp.exec_bind_ok hpointed]
  by_cases hlevel : level < m.ctx.syncLevel
  · simp [Interp.exec_bind, hlevel]
  · simp [Interp.exec_bind, hlevel]
    rfl

theorem release_held {m : Machine} {objects : Namespace} {name : Str} {level : UInt8}
    (hobjects : m.acpi.objects = some objects) (hlock : m.acpi.locked = false)
    (hmutex : objects name = some (.Mutex level (some m.ctx.ctxId))) (byRef : Bool) :
    (MutexOp.release name byRef).run m =
      if level = m.ctx.syncLevel then some (m.insert objects name (.Mutex level none))
      else none := by
  have hpointed := exec_pointed hobjects hlock hmutex byRef
  simp only [MutexOp.run, releaseMutex]
  rw [Interp.exec_bind_ok Interp.exec_get, Interp.exec_bind_ok hpointed]
  by_cases hlevel : level = m.ctx.syncLevel
  · simp [Interp.exec_bind, hlevel]
  · simp [Interp.exec_bind, hlevel]

/-! ### Whole sequences -/

/-- The machine while these mutexes are held: they are owned, and nothing else in
the namespace has changed. -/
structure Holding (objects : Namespace) (id : UInt64) (held : List Str) (m : Machine) : Prop where
  nodup : held.Nodup
  locked : m.acpi.locked = false
  ctxId : m.ctx.ctxId = id
  objects : m.acpi.objects = some fun name =>
    if name ∈ held then some (.Mutex (levelOf objects name) (some id)) else objects name

section Sequences

variable {objects : Namespace} {id : UInt64} {held : List Str} {ops : List MutexOp}
  {m m' : Machine} {name : Str}

/-- An acquire is refused for a lower level only, and sets the level. -/
theorem Holding.acquire (h : Holding objects id held m) (hfree : IsFree objects name)
    (hnew : name ∉ held) (byRef : Bool) : ∃ m₁, Holding objects id (name :: held) m₁ ∧
      m₁.ctx.syncLevel = levelOf objects name ∧
      (MutexOp.acquire name byRef).run m =
        if levelOf objects name < m.ctx.syncLevel then none else some m₁ := by
  have hmutex : (if name ∈ held then some (.Mutex (levelOf objects name) (some id))
      else objects name) = some (.Mutex (levelOf objects name) none) := by
    rw [if_neg hnew]
    exact hfree
  have hrun := acquire_free h.objects h.locked hmutex byRef
  refine ⟨m.taken _ name (levelOf objects name),
    ⟨List.nodup_cons.mpr ⟨hnew, h.nodup⟩, h.locked, h.ctxId, ?_⟩, rfl, hrun⟩
  simp only [Machine.taken, Machine.insert, h.ctxId, Option.some.injEq]
  funext other
  by_cases hother : other = name
  · subst hother
    simp
  · simp [hother]

/-- A release is refused for another level only, and leaves the level. -/
theorem Holding.release (h : Holding objects id (name :: held) m) (hfree : IsFree objects name)
    (byRef : Bool) : ∃ m₁, Holding objects id held m₁ ∧ m₁.ctx.syncLevel = m.ctx.syncLevel ∧
      (MutexOp.release name byRef).run m =
        if levelOf objects name = m.ctx.syncLevel then some m₁ else none := by
  obtain ⟨hnew, hnodup⟩ := List.nodup_cons.mp h.nodup
  have hmutex : (if name ∈ name :: held then some (.Mutex (levelOf objects name) (some id))
      else objects name) = some (.Mutex (levelOf objects name) (some m.ctx.ctxId)) := by
    rw [if_pos List.mem_cons_self, h.ctxId]
  have hrun := release_held h.objects h.locked hmutex byRef
  refine ⟨m.insert _ name (.Mutex (levelOf objects name) none),
    ⟨hnodup, h.locked, h.ctxId, ?_⟩, rfl, hrun⟩
  simp only [Machine.insert, Option.some.injEq]
  funext other
  by_cases hother : other = name
  · subst hother
    simp only [Function.update_self, if_neg hnew]
    exact hfree.symm
  · simp [hother]

/-- A sequence on mutexes of the context's own level succeeds. -/
theorem Nested.succeeds (hnested : Nested (levelOf objects) held ops)
    (h : Holding objects id held m) (hfree : ∀ op ∈ ops, IsFree objects op.name)
    (hlevels : ∀ op ∈ ops, levelOf objects op.name = m.ctx.syncLevel) :
    ∃ m', runMutexOps ops m = some m' ∧ Holding objects id [] m' ∧
      m'.ctx.syncLevel = m.ctx.syncLevel := by
  induction hnested generalizing m with
  | done => exact ⟨m, rfl, h, rfl⟩
  | @acquire name byRef held ops hnew _ _ ih =>
    obtain ⟨hop, hlevels⟩ := List.forall_mem_cons.mp hlevels
    have hlevel : levelOf objects name = m.ctx.syncLevel := hop
    obtain ⟨hop, hfree⟩ := List.forall_mem_cons.mp hfree
    have hname : IsFree objects name := hop
    obtain ⟨m₁, h₁, hsync, hrun⟩ := h.acquire hname hnew byRef
    have hsame : m₁.ctx.syncLevel = m.ctx.syncLevel := hsync.trans hlevel
    obtain ⟨m', hrest, h', hsync'⟩ := ih h₁ hfree fun op hop => (hlevels op hop).trans hsame.symm
    refine ⟨m', ?_, h', hsync'.trans hsame⟩
    have hge : ¬ levelOf objects name < m.ctx.syncLevel := by
      rw [hlevel]
      exact UInt8.lt_irrefl _
    rw [runMutexOps, List.foldlM_cons, hrun, if_neg hge]
    exact hrest
  | @release name byRef held ops _ ih =>
    obtain ⟨hop, hlevels⟩ := List.forall_mem_cons.mp hlevels
    have hlevel : levelOf objects name = m.ctx.syncLevel := hop
    obtain ⟨hop, hfree⟩ := List.forall_mem_cons.mp hfree
    have hname : IsFree objects name := hop
    obtain ⟨m₁, h₁, hsync, hrun⟩ := h.release hname byRef
    obtain ⟨m', hrest, h', hsync'⟩ := ih h₁ hfree fun op hop => (hlevels op hop).trans hsync.symm
    refine ⟨m', ?_, h', hsync'.trans hsync⟩
    rw [runMutexOps, List.foldlM_cons, hrun, if_pos hlevel]
    exact hrest

/-- The context's level only rises over a sequence that succeeds, through the
levels of its mutexes. -/
theorem Nested.levels (hnested : Nested (levelOf objects) held ops)
    (h : Holding objects id held m) (hfree : ∀ op ∈ ops, IsFree objects op.name)
    (hrun : runMutexOps ops m = some m') :
    m.ctx.syncLevel ≤ m'.ctx.syncLevel ∧ ∀ op ∈ ops,
      m.ctx.syncLevel ≤ levelOf objects op.name ∧ levelOf objects op.name ≤ m'.ctx.syncLevel := by
  induction hnested generalizing m with
  | done =>
    cases hrun
    simp
  | @acquire name byRef held ops hnew _ _ ih =>
    obtain ⟨hop, hfree⟩ := List.forall_mem_cons.mp hfree
    have hname : IsFree objects name := hop
    obtain ⟨m₁, h₁, hsync, hstep⟩ := h.acquire hname hnew byRef
    rw [runMutexOps, List.foldlM_cons, hstep] at hrun
    by_cases hlt : levelOf objects name < m.ctx.syncLevel
    · rw [if_pos hlt] at hrun
      cases hrun
    · rw [if_neg hlt] at hrun
      obtain ⟨hle, hops⟩ := ih h₁ hfree hrun
      rw [hsync] at hle hops
      have hge : m.ctx.syncLevel ≤ levelOf objects name := UInt8.not_lt.mp hlt
      refine ⟨UInt8.le_trans hge hle, List.forall_mem_cons.mpr ⟨⟨hge, hle⟩, ?_⟩⟩
      intro op hop
      exact ⟨UInt8.le_trans hge (hops op hop).1, (hops op hop).2⟩
  | @release name byRef held ops _ ih =>
    obtain ⟨hop, hfree⟩ := List.forall_mem_cons.mp hfree
    have hname : IsFree objects name := hop
    obtain ⟨m₁, h₁, hsync, hstep⟩ := h.release hname byRef
    rw [runMutexOps, List.foldlM_cons, hstep] at hrun
    by_cases hlevel : levelOf objects name = m.ctx.syncLevel
    · rw [if_pos hlevel] at hrun
      obtain ⟨hle, hops⟩ := ih h₁ hfree hrun
      rw [hsync] at hle hops
      refine ⟨hle, List.forall_mem_cons.mpr ⟨?_, hops⟩⟩
      rw [show levelOf objects (MutexOp.release name byRef).name = m.ctx.syncLevel from hlevel]
      exact ⟨UInt8.le_refl _, hle⟩
    · rw [if_neg hlevel] at hrun
      cases hrun

end Sequences

/-! ### Other contexts -/

/-- A call of either kind on any pointer, by a context on the shared state. -/
structure MutexCall where
  ctx : AmlExecutionContext
  ptr : AmlValue
  acquires : Bool

def MutexCall.code (call : MutexCall) : Interp Unit :=
  if call.acquires then do let _ ← acquireMutex call.ptr else releaseMutex call.ptr

/-- The shared state after a call, whatever the call returns. -/
def MutexCall.after (acpi : Acpi) (call : MutexCall) : Acpi :=
  match call.code.exec ⟨call.ctx, acpi⟩ with
  | .ok (_, m') => m'.acpi
  | .error _ => acpi

/-- The mutex of a name is owned. -/
def OwnedBy (acpi : Acpi) (name : Str) (owner : UInt64) : Prop :=
  ∃ objects level, acpi.objects = some objects ∧ objects name = some (.Mutex level (some owner))

/-- All that a call does to the shared state: nothing, or one object is replaced
that is no mutex of another context. -/
def Replaces (m m' : Machine) : Prop :=
  m'.acpi = m.acpi ∨ ∃ objects name object value, m.acpi.objects = some objects ∧
    objects name = some object ∧
    (∀ level owner, object = .Mutex level (some owner) → owner = m.ctx.ctxId) ∧
    m'.acpi = (m.insert objects name value).acpi

/-- Looking up the pointed object changes nothing. -/
theorem exec_pointed_cases (ptr : AmlValue) (m : Machine) :
    (∃ reason, (pointed ptr).exec m = .error reason) ∨
    (∃ e, (pointed ptr).exec m = .ok (.error e, m)) ∨
    ∃ objects name object, (pointed ptr).exec m = .ok (.ok (objects, name, object), m) ∧
      m.acpi.objects = some objects ∧ objects name = some object := by
  cases hlock : m.acpi.locked with
  | true =>
    have hlocked : lockedNamespace.exec m = .error .deadlock := by
      rw [lockedNamespace, Interp.exec_bind_ok Interp.exec_get, hlock]
      rfl
    refine .inl ⟨.deadlock, ?_⟩
    rw [pointed, Interp.exec_bind, hlocked]
  | false =>
    have hlocked : lockedNamespace.exec m = .ok (.ok m.acpi.objects, m) := by
      rw [lockedNamespace, Interp.exec_bind_ok Interp.exec_get, hlock]
      rfl
    right
    cases hobjects : m.acpi.objects with
    | none =>
      left
      refine ⟨.AmlHardFatal, ?_⟩
      rw [pointed, Interp.exec_bind_ok hlocked, hobjects]
      rfl
    | some objects =>
      have hname : (∃ name, (liftM (pointedName ptr) : Interp Str).exec m = .ok (.ok name, m)) ∨
          ∃ e, (liftM (pointedName ptr) : Interp Str).exec m = .ok (.error e, m) := by
        unfold pointedName
        split
        · exact .inl ⟨_, rfl⟩
        · exact .inl ⟨_, rfl⟩
        · exact .inr ⟨_, rfl⟩
      rcases hname with ⟨name, hname⟩ | ⟨e, hname⟩
      · cases hobject : objects name with
        | none =>
          left
          refine ⟨.AmlValueError, ?_⟩
          rw [pointed, Interp.exec_bind_ok hlocked, hobjects]
          dsimp only
          rw [Interp.exec_bind_ok hname, hobject]
          rfl
        | some object =>
          right
          refine ⟨objects, name, object, ?_, rfl, hobject⟩
          rw [pointed, Interp.exec_bind_ok hlocked, hobjects]
          dsimp only
          rw [Interp.exec_bind_ok hname, hobject]
          rfl
      · left
        refine ⟨e, ?_⟩
        rw [pointed, Interp.exec_bind_ok hlocked, hobjects]
        dsimp only
        rw [Interp.exec_bind, hname]

theorem acquireMutex_replaces {ptr : AmlValue} {m m' : Machine} {r : Except AmlError Bool}
    (h : (acquireMutex ptr).exec m = .ok (r, m')) : Replaces m m' := by
  rw [acquireMutex, Interp.exec_bind_ok Interp.exec_get] at h
  rcases exec_pointed_cases ptr m with
    ⟨reason, hp⟩ | ⟨e, hp⟩ | ⟨objects, name, object, hp, hobjects, hobject⟩
  · rw [Interp.exec_bind, hp] at h
    cases h
  · rw [Interp.exec_bind, hp] at h
    cases h
    exact .inl rfl
  · rw [Interp.exec_bind_ok hp] at h
    dsimp only at h
    split at h
    · next level owner =>
      split at h
      · next hfree =>
        subst hfree
        rw [Interp.exec_bind_ok Interp.exec_get] at h
        by_cases hlevel : level < m.ctx.syncLevel
        · rw [if_pos hlevel] at h
          cases h
          exact .inl rfl
        · rw [if_neg hlevel] at h
          cases h
          refine .inr ⟨objects, name, _, _, hobjects, hobject, ?_, rfl⟩
          rintro _ _ ⟨⟩
      · cases h
        exact .inl rfl
    · next region =>
      split at h
      · cases h
        refine .inr ⟨objects, name, _, _, hobjects, hobject, ?_, rfl⟩
        rintro _ _ ⟨⟩
      · cases h
        exact .inl rfl
    · cases h
      exact .inl rfl

theorem releaseMutex_replaces {ptr : AmlValue} {m m' : Machine} {r : Except AmlError Unit}
    (h : (releaseMutex ptr).exec m = .ok (r, m')) : Replaces m m' := by
  rw [releaseMutex, Interp.exec_bind_ok Interp.exec_get] at h
  rcases exec_pointed_cases ptr m with
    ⟨reason, hp⟩ | ⟨e, hp⟩ | ⟨objects, name, object, hp, hobjects, hobject⟩
  · rw [Interp.exec_bind, hp] at h
    cases h
  · rw [Interp.exec_bind, hp] at h
    cases h
    exact .inl rfl
  · rw [Interp.exec_bind_ok hp] at h
    dsimp only at h
    split at h
    · next level owner =>
      split at h
      · next o =>
        split at h
        · next hown =>
          rw [Interp.exec_bind_ok Interp.exec_get] at h
          by_cases hlevel : level = m.ctx.syncLevel
          · rw [if_pos hlevel] at h
            cases h
            refine .inr ⟨objects, name, _, _, hobjects, hobject, ?_, rfl⟩
            rintro _ _ ⟨⟩
            exact hown
          · rw [if_neg hlevel] at h
            cases h
            exact .inl rfl
        · cases h
          exact .inl rfl
      · cases h
        exact .inl rfl
    · next region =>
      split at h
      · split at h
        · cases h
          refine .inr ⟨objects, name, _, _, hobjects, hobject, ?_, rfl⟩
          rintro _ _ ⟨⟩
        · cases h
          exact .inl rfl
      · cases h
        exact .inl rfl
    · cases h
      exact .inl rfl

/-- What is replaced is not a mutex of another context. -/
theorem Replaces.ownedBy {m m' : Machine} {name : Str} {owner : UInt64} (h : Replaces m m')
    (howned : OwnedBy m.acpi name owner) (hctx : m.ctx.ctxId ≠ owner) :
    OwnedBy m'.acpi name owner := by
  rcases h with hsame | ⟨objects, other, object, value, hobjects, hobject, hown, hafter⟩
  · rwa [hsame]
  · obtain ⟨now, level, hnow, hname⟩ := howned
    obtain rfl : now = objects := Option.some.inj (hnow.symm.trans hobjects)
    have hother : other ≠ name := by
      rintro rfl
      rw [hname] at hobject
      exact hctx (hown level owner (Option.some.inj hobject).symm).symm
    rw [hafter]
    exact ⟨_, level, rfl, by rw [Function.update_of_ne hother.symm]; exact hname⟩

/-- A call of another context leaves a mutex with its owner. -/
theorem OwnedBy.after {acpi : Acpi} {name : Str} {owner : UInt64} (h : OwnedBy acpi name owner)
    {call : MutexCall} (hctx : call.ctx.ctxId ≠ owner) : OwnedBy (call.after acpi) name owner := by
  unfold MutexCall.after
  split
  · next r m' hrun =>
    have hreplaces : Replaces ⟨call.ctx, acpi⟩ m' := by
      unfold MutexCall.code at hrun
      split at hrun
      · rw [Interp.exec_bind] at hrun
        split at hrun
        · next hacquire =>
          cases hrun
          exact acquireMutex_replaces hacquire
        · next hacquire =>
          cases hrun
          exact acquireMutex_replaces hacquire
        · cases hrun
      · exact releaseMutex_replaces hrun
    exact hreplaces.ownedBy h hctx
  · exact h

/-! ### The whole law -/

/-- The sequence does what is asked of it, frees its mutexes and leaves the
context's level. -/
def Succeeds (m : Machine) (ops : List MutexOp) : Prop :=
  ∃ m' objects, runMutexOps ops m = some m' ∧ m'.acpi.objects = some objects ∧
    (∀ op ∈ ops, IsFree objects op.name) ∧ m'.ctx.syncLevel = m.ctx.syncLevel

/-- **A nested sequence succeeds exactly when all its mutexes have the level the
context started with; and a mutex stays with its owner over any calls of other
contexts.** -/
theorem mutexes_released_iff (m : Machine) (objects : Namespace) (ops : List MutexOp)
    (hobjects : m.acpi.objects = some objects) (hlock : m.acpi.locked = false)
    (hfree : ∀ op ∈ ops, IsFree objects op.name) (hnested : Nested (levelOf objects) [] ops) :
    (Succeeds m ops ↔ ∀ op ∈ ops, levelOf objects op.name = m.ctx.syncLevel) ∧
    ∀ (acpi : Acpi) (name : Str) (owner : UInt64) (calls : List MutexCall),
      OwnedBy acpi name owner → (∀ call ∈ calls, call.ctx.ctxId ≠ owner) →
      OwnedBy (calls.foldl MutexCall.after acpi) name owner := by
  constructor
  · have hstart : Holding objects m.ctx.ctxId [] m :=
      ⟨List.nodup_nil, hlock, rfl, by simpa using hobjects⟩
    constructor
    · rintro ⟨m', -, hrun, -, -, hsync⟩ op hop
      have hlevels := (hnested.levels hstart hfree hrun).2 op hop
      rw [hsync] at hlevels
      exact UInt8.le_antisymm hlevels.2 hlevels.1
    · intro hlevels
      obtain ⟨m', hrun, hend, hsync⟩ := hnested.succeeds hstart hfree hlevels
      exact ⟨m', objects, hrun, by simpa using hend.objects, hfree, hsync⟩
  · intro acpi name owner calls howned hothers
    induction calls generalizing acpi with
    | nil => exact howned
    | cons call calls ih =>
      obtain ⟨hcall, hothers⟩ := List.forall_mem_cons.mp hothers
      exact ih _ (howned.after hcall) hothers

/-! ### Two levels -/

/-- Two free mutexes, of levels 0 and 1. -/
def sampleObjects : Namespace := fun name =>
  if name = ['A'] then some (.Mutex 0 none)
  else if name = ['B'] then some (.Mutex 1 none) else none

/-- A context at level 0. -/
def sampleMachine : Machine := .new (some sampleObjects)

/-- `A` is taken, `B` above it and given back: then `A` is no longer given back. -/
theorem outer_not_released :
    Nested (levelOf sampleObjects) []
      [.acquire ['A'] false, .acquire ['B'] false, .release ['B'] false, .release ['A'] false] ∧
    (runMutexOps [.acquire ['A'] false, .acquire ['B'] false, .release ['B'] false]
      sampleMachine).isSome = true ∧
    runMutexOps [.acquire ['A'] false, .acquire ['B'] false, .release ['B'] false,
      .release ['A'] false] sampleMachine = none := by
  refine ⟨?_, rfl, rfl⟩
  exact .acquire (by decide) (by decide) (.acquire (by decide) (by decide)
    (.release (.release .done)))

/-- One mutex of the context's level is taken and given back twice. -/
theorem own_level_released :
    Succeeds sampleMachine
      [.acquire ['A'] false, .release ['A'] true, .acquire ['A'] true, .release ['A'] false] := by
  refine (mutexes_released_iff sampleMachine sampleObjects _ rfl rfl ?_ ?_).1.mpr ?_
  · simp only [List.forall_mem_cons]
    exact ⟨rfl, rfl, rfl, rfl, List.forall_mem_nil _⟩
  · exact .acquire (by decide) (by decide) (.release (.acquire (by decide) (by decide)
      (.release .done)))
  · decide

end Faastr.Aml
