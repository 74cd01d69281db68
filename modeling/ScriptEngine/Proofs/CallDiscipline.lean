import ScriptEngine.Proofs.CallStacks

/-!
# The discipline of calls

An embedding program that leaves the records of calls alone, except that it makes further calls, is
an `Embedding`: what its units and native functions do is a tree of steps and calls. Such a program
can be watched. The watched program notes which frames have begun and not ended, and at each moment
when it is in control it writes down these frames and the store. The notes change nothing, and at
every moment the records in the store are those of the frames that have begun.
-/

namespace ScriptEngine

variable {noted calls : List Frame} {e : Fault} {σ α β : Type}

/-! ## Embedding programs -/

/-- What a unit or a native function does. Between further calls it works on the machine and leaves
the links between records alone. -/
inductive Activity (σ : Type) where
  | finish (result : Except ScriptError Value)
  | work (change : Machine σ → Machine σ)
    (kept : ∀ m : Machine σ, m.store.CallsKept (change m).store) (next : Machine σ → Activity σ)
  | call (function scope : ObjId) (receiver : Option ObjId) (args : List Value)
    (next : Except ScriptError Value → Activity σ)
  | execute (unit : CompiledUnit) (scope : ObjId) (next : Except ScriptError Value → Activity σ)

def Activity.run (d : Dispatch σ) : Activity σ → Run σ Value
  | .finish result => ExceptT.mk (pure result)
  | .work change _ next => do
    let m ← getThe (Machine σ)
    modifyThe (Machine σ) change
    (next m).run d
  | .call function scope receiver args next => do
    let result ← ExceptT.lift (d.call function scope receiver args).run
    (next result).run d
  | .execute unit scope next => do
    let result ← ExceptT.lift (d.execute unit scope).run
    (next result).run d

/-- An embedding program that touches the records of calls only by making calls. -/
structure Embedding (σ : Type) where
  unit : Frame → Activity σ
  native : String → NativeCall → Activity σ

def Embedding.host (e : Embedding σ) : Host σ where
  interpret d frame := (e.unit frame).run d
  native d key c := (e.native key c).run d

/-! ## Watching -/

/-- The state of an embedding program that is watched. -/
structure Watch (σ : Type) where
  host : σ
  /-- The frames that have begun and not ended, the innermost first. -/
  calls : List Frame
  /-- The frames and the store at the moments when the program was in control, the last one
  first. -/
  seen : List (List Frame × Store)

namespace Machine

/-- The machine without the notes. -/
def bare (m : Machine (Watch σ)) : Machine σ := ⟨m.realm, m.store, m.host.host⟩

/-- The machine with empty notes, while some calls are under way. -/
def watch (m : Machine σ) (calls : List Frame) : Machine (Watch σ) :=
  ⟨m.realm, m.store, ⟨m.host, calls, []⟩⟩

/-- Writes the moment down. -/
def note (m : Machine (Watch σ)) : Machine (Watch σ) :=
  { m with host := { m.host with seen := (m.host.calls, m.store) :: m.host.seen } }

/-- Notes which frames have begun and not ended. -/
def setCalls (calls : List Frame → List Frame) (m : Machine (Watch σ)) : Machine (Watch σ) :=
  { m with host := { m.host with calls := calls m.host.calls } }

/-- A change of the machine that leaves the notes alone. -/
def onBare (change : Machine σ → Machine σ) (m : Machine (Watch σ)) : Machine (Watch σ) :=
  let n := change m.bare
  ⟨n.realm, n.store, { m.host with host := n.host }⟩

end Machine

/-- Does the same as `Activity.run`, and writes down each moment. -/
def Activity.watch (d : Dispatch (Watch σ)) : Activity σ → Run (Watch σ) Value
  | .finish result => do
    modifyThe (Machine (Watch σ)) Machine.note
    ExceptT.mk (pure result)
  | .work change _ next => do
    modifyThe (Machine (Watch σ)) Machine.note
    let m ← getThe (Machine (Watch σ))
    modifyThe (Machine (Watch σ)) (Machine.onBare change)
    (next m.bare).watch d
  | .call function scope receiver args next => do
    modifyThe (Machine (Watch σ)) Machine.note
    let result ← ExceptT.lift (d.call function scope receiver args).run
    (next result).watch d
  | .execute unit scope next => do
    modifyThe (Machine (Watch σ)) Machine.note
    let result ← ExceptT.lift (d.execute unit scope).run
    (next result).watch d

def Embedding.watched (e : Embedding σ) : Host (Watch σ) where
  interpret d frame := do
    modifyThe (Machine (Watch σ)) (Machine.setCalls (frame :: ·))
    let result ← ExceptT.lift ((e.unit frame).watch d).run
    modifyThe (Machine (Watch σ)) (Machine.setCalls List.tail)
    ExceptT.mk (pure result)
  native d key c := (e.native key c).watch d

/-! ## Outcomes -/

namespace Run

/-- How a computation ends on a machine. -/
def outcome (x : Run σ α) (m : Machine σ) :
    EStateM.Result Fault (Machine σ) (Except ScriptError α) :=
  x.run.run m

/-- A sequence ends as its second part does, unless the first one fails. -/
theorem outcome_bind (x : Run σ α) (f : α → Run σ β) (m : Machine σ) :
    (x >>= f).outcome m = match x.outcome m with
      | .ok (.ok a) m' => (f a).outcome m'
      | .ok (.error e) m' => .ok (.error e) m'
      | .error e m' => .error e m' := by
  have hrun : x.run m = x.outcome m := rfl
  show EStateM.bind x.run _ m = _
  rw [EStateM.bind, hrun]
  cases x.outcome m with
  | ok result m' => cases result <;> rfl
  | error e m' => rfl

private theorem outcome_get (m : Machine σ) :
    (getThe (Machine σ) : Run σ _).outcome m = .ok (.ok m) m := rfl

theorem outcome_store (m : Machine σ) : (store : Run σ Store).outcome m = .ok (.ok m.store) m := rfl

private theorem outcome_modify (f : Machine σ → Machine σ) (m : Machine σ) :
    (modifyThe (Machine σ) f : Run σ Unit).outcome m = .ok (.ok ()) (f m) := rfl

private theorem outcome_lift (x : Run σ α) (m : Machine σ) :
    Run.outcome (ExceptT.lift x.run) m = match x.outcome m with
      | .ok result m' => .ok (.ok result) m'
      | .error e m' => .error e m' := by
  have hrun : x.run m = x.outcome m := rfl
  show EStateM.map _ x.run m = _
  rw [EStateM.map, hrun]
  cases x.outcome m <;> rfl

end Run

/-! ## Watched and not watched -/

/-- The moments that have been written down are in order. -/
def Watch.Orderly (w : Watch σ) : Prop := ∀ moment ∈ w.seen, moment.2.Stacked moment.1

/-- Some frames have been noted as under way, and the records are those of some calls. The two
differ only while a call begins or ends. -/
structure Machine.Watched (noted calls : List Frame) (m : Machine (Watch σ)) : Prop where
  calls_eq : m.host.calls = noted
  stacked : m.store.Stacked calls
  orderly : m.host.Orderly

/-- From machines of one kind, a watched computation does what the other one does and comes to
machines of another kind. -/
def Run.Mirrors (before after : Machine (Watch σ) → Prop) (w : Run (Watch σ) α) (p : Run σ α) :
    Prop :=
  ∀ m : Machine (Watch σ), before m →
    match w.outcome m with
    | .ok result m' => p.outcome m.bare = .ok result m'.bare ∧ after m'
    | .error f m' =>
      p.outcome m.bare = .error f m'.bare ∧ (∀ name, f ≠ .stackMismatch name) ∧ m'.host.Orderly

namespace Run.Mirrors

variable {P Q R : Machine (Watch σ) → Prop} {w : Run (Watch σ) α} {p : Run σ α}

private theorem pure (a : α) : Mirrors P P (Pure.pure a : Run (Watch σ) α) (Pure.pure a) :=
  fun _ hm => ⟨rfl, hm⟩

private theorem throw (e : ScriptError) :
    Mirrors P P (MonadExcept.throw e : Run (Watch σ) α) (MonadExcept.throw e) :=
  fun _ hm => ⟨rfl, hm⟩

private theorem mk (result : Except ScriptError α) :
    Mirrors P P (ExceptT.mk (Pure.pure result) : Run (Watch σ) α) (ExceptT.mk (Pure.pure result)) :=
  fun _ hm => ⟨rfl, hm⟩

private theorem store : Mirrors P P (Run.store : Run (Watch σ) Store) Run.store :=
  fun _ hm => ⟨rfl, hm⟩

private theorem realm : Mirrors P P (Run.realm : Run (Watch σ) Realm) Run.realm :=
  fun _ hm => ⟨rfl, hm⟩

private theorem bind {f : α → Run (Watch σ) β} {g : α → Run σ β} (h : Mirrors P Q w p)
    (hf : ∀ a, Mirrors Q Q (f a) (g a)) : Mirrors P Q (w >>= f) (p >>= g) := by
  intro m hm
  have hx := h m hm
  rw [outcome_bind, outcome_bind]
  cases hw : w.outcome m with
  | error e m' =>
    rw [hw] at hx
    rw [hx.1]
    exact ⟨rfl, hx.2⟩
  | ok result m' =>
    rw [hw] at hx
    rw [hx.1]
    cases result with
    | error e => exact ⟨rfl, hx.2⟩
    | ok a => exact hf a m' hx.2

/-- What follows also learns of an error, so it can go on to other machines. -/
theorem lift_bind {f : Except ScriptError α → Run (Watch σ) β} {g : Except ScriptError α → Run σ β}
    (h : Mirrors P Q w p) (hf : ∀ result, Mirrors Q R (f result) (g result)) :
    Mirrors P R (ExceptT.lift w.run >>= f) (ExceptT.lift p.run >>= g) := by
  intro m hm
  have hx := h m hm
  rw [outcome_bind, outcome_bind, outcome_lift, outcome_lift]
  cases hw : w.outcome m with
  | error e m' =>
    rw [hw] at hx
    rw [hx.1]
    exact ⟨rfl, hx.2⟩
  | ok result m' =>
    rw [hw] at hx
    rw [hx.1]
    exact hf result m' hx.2

/-- A step on both machines. -/
theorem modify_bind {f : Machine (Watch σ) → Machine (Watch σ)} {g : Machine σ → Machine σ}
    (hf : ∀ m, P m → Q (f m) ∧ (f m).bare = g m.bare) (h : Mirrors Q R w p) :
    Mirrors P R (modifyThe (Machine (Watch σ)) f >>= fun _ => w)
      (modifyThe (Machine σ) g >>= fun _ => p) := by
  intro m hm
  rw [outcome_bind, outcome_bind, outcome_modify, outcome_modify, ← (hf m hm).2]
  exact h (f m) (hf m hm).1

/-- A step that only changes the notes. -/
theorem note_bind {f : Machine (Watch σ) → Machine (Watch σ)}
    (hf : ∀ m, P m → Q (f m) ∧ (f m).bare = m.bare) (h : Mirrors Q R w p) :
    Mirrors P R (modifyThe (Machine (Watch σ)) f >>= fun _ => w) p := by
  intro m hm
  rw [outcome_bind, outcome_modify, ← (hf m hm).2]
  exact h (f m) (hf m hm).1

private theorem weaken {P' R' : Machine (Watch σ) → Prop} (h : Mirrors P R w p)
    (hP : ∀ m, P' m → P m) (hR : ∀ m, R m → R' m) : Mirrors P' R' w p := by
  intro m hm
  have hx := h m (hP m hm)
  cases hw : w.outcome m with
  | error e m' =>
    rw [hw] at hx
    exact hx
  | ok result m' =>
    rw [hw] at hx
    exact ⟨hx.1, hR m' hx.2⟩

/-- The notes may change after a computation, also if it has ended in an error. -/
theorem lift_note {f : Machine (Watch σ) → Machine (Watch σ)} (h : Mirrors P Q w p)
    (hf : ∀ m, Q m → R (f m) ∧ (f m).bare = m.bare) :
    Mirrors P R (ExceptT.lift w.run >>= fun result =>
      modifyThe (Machine (Watch σ)) f >>= fun _ => ExceptT.mk (Pure.pure result)) p := by
  intro m hm
  have hx := h m hm
  rw [outcome_bind, outcome_lift]
  cases hw : w.outcome m with
  | error e m' =>
    rw [hw] at hx
    exact hx
  | ok result m' =>
    rw [hw] at hx
    obtain ⟨hafter, hbare⟩ := hf m' hx.2
    exact ⟨by rw [hx.1, hbare], hafter⟩

private theorem get_bind {f : Machine (Watch σ) → Run (Watch σ) α} {g : Machine σ → Run σ α}
    (h : ∀ n, Mirrors P R (f n) (g n.bare)) :
    Mirrors P R (getThe (Machine (Watch σ)) >>= f) (getThe (Machine σ) >>= g) := by
  intro m hm
  rw [outcome_bind, outcome_bind, outcome_get, outcome_get]
  exact h m m hm

private theorem allocate_bind {Q : ObjId → Machine (Watch σ) → Prop} {f : Store → ObjId × Store}
    {w : ObjId → Run (Watch σ) α} {p : ObjId → Run σ α}
    (hf : ∀ m : Machine (Watch σ), P m → Q (f m.store).1 { m with store := (f m.store).2 })
    (h : ∀ id, Mirrors (Q id) R (w id) (p id)) :
    Mirrors P R (allocate f >>= w) (allocate f >>= p) := by
  intro m hm
  rw [outcome_bind, outcome_bind]
  exact h _ _ (hf m hm)

end Run.Mirrors

/-! ## Steps that leave the calls alone -/

namespace Machine.Watched

variable {m : Machine (Watch σ)}

private theorem setStore (h : m.Watched noted calls) {s : Store} (hs : m.store.CallsKept s) :
    Machine.Watched noted calls { m with store := s } :=
  ⟨h.calls_eq, h.stacked.kept hs, h.orderly⟩

private theorem onBare (h : m.Watched noted calls) {change : Machine σ → Machine σ}
    (kept : ∀ m : Machine σ, m.store.CallsKept (change m).store) :
    (m.onBare change).Watched noted calls :=
  ⟨h.calls_eq, h.stacked.kept (kept m.bare), h.orderly⟩

private theorem note (h : m.Watched calls calls) : m.note.Watched calls calls := by
  refine ⟨h.calls_eq, h.stacked, fun moment hmoment => ?_⟩
  rcases List.mem_cons.mp hmoment with rfl | hmoment
  · rw [h.calls_eq]
    exact h.stacked
  · exact h.orderly moment hmoment

end Machine.Watched

namespace Run

/-- Two runs agree and leave the calls that are under way. -/
abbrev MirrorsIn (noted calls : List Frame) (w : Run (Watch σ) α) (p : Run σ α) : Prop :=
  Mirrors (Machine.Watched noted calls) (Machine.Watched noted calls) w p

private theorem mirrors_modifyStore {f : Store → Store} (hf : ∀ s : Store, s.CallsKept (f s)) :
    MirrorsIn noted calls (modifyStore f : Run (Watch σ) Unit) (modifyStore f) :=
  fun m hm => ⟨rfl, hm.setStore (hf m.store)⟩

private theorem mirrors_toObject (v : Value) :
    MirrorsIn noted calls (toObject v : Run (Watch σ) ObjId) (toObject v) := by
  intro m hm
  have hplain : ∀ name, m.store.CallsKept
      (m.store.newPlain name (some m.realm.objectPrototype) (some v)).2 :=
    fun name => (Store.evolves_push (by simp [ObjectKind.role])
      (by simp [ObjectKind.role])).callsKept
  cases v with
  | undefined => exact ⟨rfl, hm⟩
  | null => exact ⟨rfl, hm⟩
  | object id => exact ⟨rfl, hm⟩
  | boolean b => exact ⟨rfl, hm.setStore (hplain _)⟩
  | number n => exact ⟨rfl, hm.setStore (hplain _)⟩
  | string text => exact ⟨rfl, hm.setStore (hplain _)⟩

private theorem mirrors_read {f : Store → Except Fault α}
    (hf : ∀ s name, f s ≠ .error (.stackMismatch name)) :
    MirrorsIn noted calls (read f : Run (Watch σ) α) (read f) := by
  refine Mirrors.bind Mirrors.store fun s => ?_
  cases hs : f s with
  | ok a => exact Mirrors.pure a
  | error e => exact fun m hm => ⟨rfl, fun name he => hf s name (he ▸ hs), hm.orderly⟩

end Run

/-! ## Declarations -/

namespace Store

private theorem callsKept_define (s : Store) (id : ObjId) (name : String) (p : Property) :
    s.CallsKept (s.define id name p) :=
  s.callsKept_setProperties ..

private theorem callsKept_put (s : Store) (id : ObjId) (name : String) (value : Value) :
    s.CallsKept (s.put id name value) :=
  (s.edit_putOwn ..).evolves.callsKept

private theorem callsKept_declareFunction (s : Store) (scope function : ObjId)
    (fromEvalCode : Bool) : s.CallsKept (s.declareFunction scope function fromEvalCode) := by
  rw [declareFunction]
  split
  · exact .refl s
  · split
    · split
      · exact s.callsKept_put ..
      · exact s.callsKept_define ..
    · exact s.callsKept_put ..
    · exact .refl s

/-- What each step of a fold keeps, the fold keeps. -/
theorem callsKept_foldl {f : Store → α → Store} (hf : ∀ (s : Store) a, s.CallsKept (f s a))
    (l : List α) (s : Store) : s.CallsKept (l.foldl f s) := by
  induction l generalizing s with
  | nil => exact .refl s
  | cons a rest ih => exact (hf s a).trans (ih (f s a))

/-- Declaring variables leaves the records of calls alone. -/
theorem callsKept_declareVariables (unit : CompiledUnit) (scope : ObjId) (s : Store) :
    s.CallsKept (Host.declareVariables unit scope s) := by
  refine callsKept_foldl (fun s name => ?_) _ s
  split
  · exact .refl s
  · split
    · exact s.callsKept_put ..
    · exact s.callsKept_define ..

/-- Declaring functions leaves the records of calls alone. -/
theorem callsKept_declareFunctions (r : Realm) (unit : CompiledUnit) (scope : ObjId) (s : Store) :
    s.CallsKept (Host.declareFunctions r unit scope s) := by
  refine callsKept_foldl (fun s nested => ?_) _ s
  split
  · refine CallsKept.trans (t := (r.newFunction nested scope false s).2) ?_
      (callsKept_declareFunction ..)
    exact (evolves_push (by simp [ObjectKind.role]) (by simp [ObjectKind.role])).callsKept
  · exact .refl s

/-! ## Elements -/

private theorem readIndex_ne_stackMismatch (s : Store) (id : ObjId) (index : Nat) (name : String) :
    s.readIndex id index ≠ .error (.stackMismatch name) := by
  rw [readIndex]
  grind

private theorem bind_ne_error {x : Except Fault α} {f : α → Except Fault β}
    (hx : x ≠ .error e) (hf : ∀ a, f a ≠ .error e) : x >>= f ≠ .error e := by
  cases x with
  | error e' => exact fun h => hx (by cases h; rfl)
  | ok a => exact hf a

private theorem mapM_ne_error {f : α → Except Fault β} (hf : ∀ a, f a ≠ .error e)
    (l : List α) : l.mapM f ≠ .error e := by
  induction l with
  | nil => exact fun h => by cases h
  | cons a rest ih =>
    rw [List.mapM_cons]
    exact bind_ne_error (hf a) fun b => bind_ne_error ih fun bs h => by cases h

private theorem elements?_ne_stackMismatch (s : Store) (id : ObjId) (name : String) :
    s.elements? id ≠ .error (.stackMismatch name) := by
  rw [elements?]
  split
  · exact fun h => by cases h
  · next a hkind =>
    have hlength : s.read id "length" = .ok (a.length <|> (s.properties id).get? "length") := by
      rw [read, hkind]
      rfl
    refine bind_ne_error (by rw [hlength]; exact fun h => by cases h) fun length => ?_
    refine bind_ne_error (mapM_ne_error (fun i => ?_) _) fun values h => by cases h
    exact bind_ne_error (s.readIndex_ne_stackMismatch id i name) fun v h => by cases h
  · exact fun h => by cases h

end Store

/-! ## Calls -/

section

variable {d : Dispatch (Watch σ)} {d' : Dispatch σ}

/-- Calls through the two dispatches agree, whatever calls are under way. -/
structure Dispatch.Mirrors (d : Dispatch (Watch σ)) (d' : Dispatch σ) : Prop where
  call : ∀ calls function scope receiver args,
    Run.MirrorsIn calls calls (d.call function scope receiver args)
      (d'.call function scope receiver args)
  execute : ∀ calls unit scope,
    Run.MirrorsIn calls calls (d.execute unit scope) (d'.execute unit scope)

/-- An activity, step by step. -/
theorem Activity.mirrors (hd : d.Mirrors d') (a : Activity σ) (calls : List Frame) :
    Run.MirrorsIn calls calls (a.watch d) (a.run d') := by
  induction a with
  | finish result => exact .note_bind (fun m hm => ⟨hm.note, rfl⟩) (.mk result)
  | work change kept next ih =>
    refine .note_bind (fun m hm => ⟨hm.note, rfl⟩) (.get_bind fun n => ?_)
    exact .modify_bind (fun m hm => ⟨hm.onBare kept, rfl⟩) (ih n.bare)
  | call function scope receiver args next ih =>
    refine .note_bind (fun m hm => ⟨hm.note, rfl⟩) ?_
    exact .lift_bind (hd.call calls function scope receiver args) ih
  | execute unit scope next ih =>
    refine .note_bind (fun m hm => ⟨hm.note, rfl⟩) ?_
    exact .lift_bind (hd.execute calls unit scope) ih

variable (e : Embedding σ) {calls : List Frame}

/-- A frame is noted while its unit runs. -/
theorem Embedding.mirrors_interpret (hd : d.Mirrors d') (frame : Frame) :
    Run.MirrorsIn calls (frame :: calls) (e.watched.interpret d frame)
      (e.host.interpret d' frame) := by
  have hbegin : ∀ m : Machine (Watch σ), m.Watched calls (frame :: calls) →
      (m.setCalls (frame :: ·)).Watched (frame :: calls) (frame :: calls) :=
    fun m hm => ⟨congrArg (frame :: ·) hm.calls_eq, hm.stacked, hm.orderly⟩
  have hend : ∀ m : Machine (Watch σ), m.Watched (frame :: calls) (frame :: calls) →
      (m.setCalls List.tail).Watched calls (frame :: calls) :=
    fun m hm => ⟨congrArg List.tail hm.calls_eq, hm.stacked, hm.orderly⟩
  refine .note_bind (fun m hm => ⟨hbegin m hm, rfl⟩) ?_
  exact .lift_note ((e.unit frame).mirrors hd (frame :: calls)) fun m hm => ⟨hend m hm, rfl⟩

/-- A frame without a record. -/
theorem Embedding.mirrors_interpret_bare (hd : d.Mirrors d') (frame : Frame)
    (hact : frame.activation = none)
    (hneeded : ∀ f, frame.function = some f → frame.unit.needsActivation = false) :
    Run.MirrorsIn calls calls (e.watched.interpret d frame) (e.host.interpret d' frame) :=
  (e.mirrors_interpret hd frame).weaken
    (fun _ hm => ⟨hm.calls_eq, hm.stacked.begin hact hneeded, hm.orderly⟩)
    fun _ hm => ⟨hm.calls_eq, hm.stacked.finish hact, hm.orderly⟩

/-- A call that ends takes its record away. -/
theorem Run.mirrors_leave {frame : Frame} {record : ObjId} (hact : frame.activation = some record) :
    Run.Mirrors (Machine.Watched noted (frame :: calls)) (Machine.Watched noted calls)
      (Run.leave record : Run (Watch σ) Unit) (Run.leave record) := by
  intro m hm
  obtain ⟨t, hleave, hstacked⟩ := hm.stacked.leave hact
  have houtcome : ∀ {τ : Type} (n : Machine τ), n.store = m.store →
      (Run.leave record : Run τ Unit).outcome n = .ok (.ok ()) { n with store := t } := by
    intro τ n hn
    rw [← hn] at hleave
    rw [Run.leave, Run.outcome_bind, Run.outcome_store]
    simp only [hleave]
    rfl
  rw [houtcome m rfl, houtcome m.bare rfl]
  exact ⟨rfl, hm.calls_eq, hstacked, hm.orderly⟩

/-- A machine on which the record of a call has been made, but is not linked yet. -/
structure Machine.Prepared (calls : List Frame) (function record : ObjId) (m : Machine (Watch σ)) :
    Prop where
  watched : m.Watched calls calls
  fresh : record ∉ Frame.records calls
  isRecord : ∃ data, m.store.activation? record = some data ∧ data.function = function

private theorem Machine.Watched.prepared {m : Machine (Watch σ)}
    (h : m.Watched calls calls) (r : Realm)
    (function : ObjId) (unit : CompiledUnit) (inspection : CallerInspection) (scope : ObjId)
    (receiver : Option ObjId) (args : List Value) :
    let made := r.newActivation function unit inspection scope receiver args m.store
    Machine.Prepared calls function made.1 { m with store := made.2 } := by
  intro made
  have hkept :=
    (r.evolves_newActivation function unit inspection scope receiver args m.store).callsKept
  obtain ⟨t, bindings, hmade, -, hobject, -⟩ :=
    r.newActivation_objects function unit inspection scope receiver args m.store
  have hmade : made = (⟨m.store.size⟩, t) := hmade
  refine ⟨h.setStore hkept, fun hmem => ?_, ⟨{ function, receiver, args }, ?_, rfl⟩⟩
  · -- The record is new, and those of the calls under way were there before.
    have hlt := h.stacked.chained.bound _ hmem
    rw [hmade] at hlt
    exact Nat.lt_irrefl _ hlt
  · show made.2.activation? made.1 = _
    rw [hmade, Store.activation?, Store.kind, hobject]

/-- The unit of a function, with or without a record. -/
theorem Embedding.mirrors_callUnit (hd : d.Mirrors d') (function : ObjId) (unit : CompiledUnit)
    (closure : Option ObjId) (inspection : CallerInspection) (c : NativeCall) :
    Run.MirrorsIn calls calls (e.watched.callUnit d function unit closure inspection c)
      (e.host.callUnit d' function unit closure inspection c) := by
  refine .bind .store fun s => ?_
  by_cases hneeded : unit.needsActivation = true
  · simp only [hneeded, if_true]
    refine .bind .realm fun r => ?_
    refine .allocate_bind (fun m hm => hm.prepared r
      function unit inspection _ _ _) fun record => ?_
    let scope := runningScope s function unit closure c.scope
    let receiver := if unit.checkThis then some (s.receiver c.receiver scope) else c.receiver
    let frame : Frame := .start (some function) unit record receiver c.args (some record)
    -- From here on the record belongs to the frame, until it is taken away.
    have henter : ∀ m : Machine (Watch σ), m.Prepared calls function record →
        Machine.Watched calls (frame :: calls) { m with store := m.store.enter record } := by
      rintro m ⟨hm, hfresh, data, hdata, rfl⟩
      exact ⟨hm.calls_eq, hm.stacked.enter hdata hfresh rfl rfl hneeded, hm.orderly⟩
    refine .modify_bind (fun m hm => ⟨henter m hm, rfl⟩) ?_
    refine .lift_bind (e.mirrors_interpret hd frame) fun result => ?_
    refine .bind (Run.mirrors_leave rfl) fun _ => ?_
    cases result with
    | ok value => exact .pure value
    | error error => exact .throw error
  · simp only [hneeded]
    refine e.mirrors_interpret_bare hd _ rfl fun f _ => ?_
    show unit.needsActivation = false
    simpa using hneeded

private theorem mirrors_appliedArgs (v : Option Value) :
    Run.MirrorsIn calls calls (appliedArgs v : Run (Watch σ) (List Value)) (appliedArgs v) := by
  rw [appliedArgs.eq_def, appliedArgs.eq_def]
  split
  · exact .pure []
  · exact .pure []
  · exact .pure []
  · next array =>
    refine .bind (Run.mirrors_read fun s name => s.elements?_ne_stackMismatch array name)
      fun values => ?_
    cases values with
    | some values => exact .pure values
    | none => exact .throw .notArray
  · exact .throw .notArray

private theorem mirrors_applyOrCall (hd : d.Mirrors d') (isApply : Bool) (c : NativeCall) :
    Run.MirrorsIn calls calls (applyOrCall isApply d c) (applyOrCall isApply d' c) := by
  rw [applyOrCall, applyOrCall]
  cases c.receiver with
  | none => exact .throw _
  | some function =>
    refine .bind .store fun s => ?_
    by_cases hcallable : s.isCallable function = true
    · -- Once the receiver is known, the arguments follow, and then the call.
      have hcall : ∀ receiver,
          Run.MirrorsIn calls calls
            (if isApply then appliedArgs c.args[1]? >>= d.call function c.scope (some receiver)
            else pure (c.args.drop 1) >>= d.call function c.scope (some receiver))
          (if isApply then appliedArgs c.args[1]? >>= d'.call function c.scope (some receiver)
            else pure (c.args.drop 1) >>= d'.call function c.scope (some receiver)) := by
        intro receiver
        cases isApply with
        | true =>
          exact .bind (mirrors_appliedArgs _) (hd.call calls function c.scope (some receiver))
        | false => exact .bind (.pure _) (hd.call calls function c.scope (some receiver))
      simp only [hcallable, Bool.not_true, Bool.false_eq_true, if_false]
      split
      · exact .bind (.pure _) hcall
      · exact .bind (.pure _) hcall
      · exact .bind (.pure _) hcall
      · exact .bind (Run.mirrors_toObject _) hcall
    · simp only [hcallable]
      exact fun m hm => ⟨rfl, hm⟩

/-- A call of any function. -/
theorem Embedding.mirrors_call (hd : d.Mirrors d')
    (function scope : ObjId) (receiver : Option ObjId) (args : List Value) :
    Run.MirrorsIn calls calls (e.watched.call d function scope receiver args)
      (e.host.call d' function scope receiver args) := by
  refine .bind .store fun s => ?_
  cases s.function? function with
  | none =>
    exact .bind .store fun s => .throw _
  | some f =>
    dsimp only
    split
    · exact e.mirrors_callUnit hd _ _ _ _ _
    · exact .pure _
    · exact mirrors_applyOrCall hd true _
    · exact mirrors_applyOrCall hd false _
    · exact (e.native _ _).mirrors hd calls
    · exact .pure _

/-- A script. -/
theorem Embedding.mirrors_execute (hd : d.Mirrors d') (unit : CompiledUnit) (scope : ObjId) :
    Run.MirrorsIn calls calls (e.watched.execute d unit scope) (e.host.execute d' unit scope) := by
  rw [Host.execute, Host.execute]
  by_cases hfun : unit.isFunction = true
  · simp only [hfun, if_true]
    exact fun m hm => ⟨rfl, hm⟩
  · simp only [hfun]
    refine .bind .realm fun r => ?_
    refine .bind (Run.mirrors_modifyStore fun s => ?_) fun _ => .bind .store fun s => ?_
    · exact (s.callsKept_declareVariables unit scope).trans (Store.callsKept_declareFunctions ..)
    · exact e.mirrors_interpret_bare hd _ rfl fun f hf => by cases hf

/-- Calls nested to any depth. -/
theorem Embedding.mirrors_dispatch (depth : Nat) :
    (e.watched.dispatch depth).Mirrors (e.host.dispatch depth) := by
  induction depth with
  | zero =>
    have hdepth : ∀ name, Fault.callDepth ≠ .stackMismatch name := by simp
    exact ⟨fun calls _ _ _ _ m hm => ⟨rfl, hdepth, hm.orderly⟩,
      fun calls _ _ m hm => ⟨rfl, hdepth, hm.orderly⟩⟩
  | succ depth ih =>
    exact ⟨fun calls function scope receiver args => e.mirrors_call ih function scope receiver args,
      fun calls unit scope => e.mirrors_execute ih unit scope⟩

end

/-! ## The discipline -/

private theorem Watch.Orderly.disciplined {w : Watch σ} (h : w.Orderly) :
    ∀ moment ∈ w.seen, moment.2.Disciplined moment.1 :=
  fun moment hmoment => (h moment hmoment).disciplined

/-- Let some calls be under way, and let one more be made by an embedding program that touches the
records of calls only by making calls. At every moment when the program is in control, in this call
or in one below it, what is seen of the records is what the frames that have begun and not ended
say. The same holds when the call has ended, in a value or in an error, and then the innermost
record is again what it was. Watching changes nothing, and records are never taken away in the wrong
order. -/
theorem calls_keep_discipline (e : Embedding σ) (depth : Nat) (function scope : ObjId)
    (receiver : Option ObjId) (args : List Value) {m : Machine σ} {calls : List Frame}
    (hm : m.store.Disciplined calls) :
    let watched :=
      ((e.watched.dispatch depth).call function scope receiver args).outcome (m.watch calls)
    let plain := ((e.host.dispatch depth).call function scope receiver args).outcome m
    (∀ result w, watched = .ok result w →
      plain = .ok result w.bare ∧ w.store.innermost = m.store.innermost ∧
      w.store.Disciplined calls ∧
        w.host.calls = calls ∧ ∀ moment ∈ w.host.seen, moment.2.Disciplined moment.1) ∧
    (∀ f w, watched = .error f w →
      plain = .error f w.bare ∧ (∀ name, f ≠ .stackMismatch name) ∧
        ∀ moment ∈ w.host.seen, moment.2.Disciplined moment.1) := by
  intro watched plain
  have hstart : (m.watch calls).Watched calls calls :=
    ⟨rfl, hm.stacked, fun moment hmoment => by cases hmoment⟩
  have hcall := (e.mirrors_dispatch depth).call calls function scope receiver args _ hstart
  refine ⟨fun result w hrun => ?_, fun f w hrun => ?_⟩
  · rw [show Run.outcome _ _ = _ from hrun] at hcall
    obtain ⟨hplain, hw⟩ := hcall
    have hafter := hw.stacked.disciplined
    exact ⟨hplain, hafter.current.trans hm.current.symm, hafter, hw.calls_eq,
      hw.orderly.disciplined⟩
  · rw [show Run.outcome _ _ = _ from hrun] at hcall
    obtain ⟨hplain, hfault, hseen⟩ := hcall
    exact ⟨hplain, hfault, hseen.disciplined⟩

/-- The activations that were seen in a run that ends because something is no array. -/
def diary? : EStateM.Result Fault (Machine (Watch σ)) (Except ScriptError Value) →
    Option (List (List ObjId))
  | .ok (.error .notArray) w => some (w.host.seen.map fun moment => moment.2.activations)
  | _ => none

/-- A function that calls itself once. The inner call ends in an error, and the outer one passes it
on. -/
theorem calls_keep_discipline_of_recursion :
    let body : Body :=
      { id := ⟨1⟩, functionType := some .expression, name := "f", root := ⟨0⟩
        requiresActivation := true }
    let unit := ({} : Assembler).finish body [] {} false
    let function : Object :=
      { kind := .function { name := "f", arity := 0, callable := .interpreted unit none .allow } }
    let store : Store := { objects := #[function] }
    let e : Embedding Unit :=
      { unit := fun frame => if frame.args.isEmpty then .call ⟨0⟩ ⟨0⟩ none [.null] .finish
          else .finish (.error .notArray)
        native := fun _ _ => .finish (.ok .undefined) }
    store.Disciplined [] ∧ ∃ w, ((e.watched.dispatch 2).call ⟨0⟩ ⟨0⟩ none []).outcome
        (Machine.watch ⟨default, store, ()⟩ []) = .ok (.error .notArray) w ∧
      w.host.seen.map (fun moment => moment.2.activations) = [[⟨1⟩], [⟨3⟩, ⟨1⟩], [⟨1⟩]] ∧
      w.store.innermost = none ∧ w.store.Disciplined [] := by
  intro body unit function store e
  have hnone : ∀ a, store.activation? a = none := by
    rintro ⟨_ | i⟩
    · rfl
    · have hle : store.size ≤ i + 1 := by
        show 1 ≤ i + 1
        omega
      rw [Store.activation?, Store.kind, Store.object_of_size_le hle]
      rfl
  have hstart : store.Disciplined [] := Store.disciplined_nil rfl hnone
  have hdiary : diary? (((e.watched.dispatch 2).call ⟨0⟩ ⟨0⟩ none []).outcome
      (Machine.watch ⟨default, store, ()⟩ [])) = some [[⟨1⟩], [⟨3⟩, ⟨1⟩], [⟨1⟩]] := by
    decide +kernel
  unfold diary? at hdiary
  split at hdiary
  · next w hrun =>
    obtain ⟨-, hinner, hafter, -⟩ :=
      (calls_keep_discipline e 2 ⟨0⟩ ⟨0⟩ none [] (m := ⟨default, store, ()⟩) hstart).1 _ w hrun
    exact ⟨hstart, w, hrun, Option.some.inj hdiary, hinner, hafter⟩
  · cases hdiary

end ScriptEngine
