import ConsoleBridge.Proofs.Process.Connection

/-!
# Recording the calls on a process

Any process can be wrapped so that its calls are kept together with their answers. The wrapped process
answers as the process does, so the calls of a recording are those that a search makes on the process
itself.
-/
namespace ConsoleBridge

inductive Call
  | read (address length : Nat) (answer : Except AccessError ByteArray)
  | write (address : Nat) (bytes : ByteArray) (answer : Except AccessError Unit)
  | regions (answer : Except AccessError (List Region))

/-- The call was answered that the process is gone. -/
def Call.Lost : Call → Prop
  | .read _ _ answer => answer = .error .disconnected
  | .write _ _ answer => answer = .error .disconnected
  | .regions answer => answer = .error .disconnected

/-- A process with the calls that were made on it, in their order. -/
structure Recording (σ : Type) where
  target : σ
  calls : List Call

variable {σ α : Type}

namespace Recording

def keep (r : Recording σ) (f : σ → Except AccessError α × σ) (call : Except AccessError α → Call) :
    Except AccessError α × Recording σ :=
  ((f r.target).1, ⟨(f r.target).2, r.calls ++ [call (f r.target).1]⟩)

instance [ProcessMemory σ] : ProcessMemory (Recording σ) where
  read r address length := r.keep (ProcessMemory.read · address length) (.read address length)
  arrived r address length := ProcessMemory.arrived r.target address length
  write r address bytes := r.keep (ProcessMemory.write · address bytes) (.write address bytes)
  regions r := r.keep ProcessMemory.regions .regions
  size_of_read {r _ address length _} h := by
    have hr := congrArg Prod.fst h
    exact ProcessMemory.size_of_read (s := r.target) (Prod.ext hr rfl)

end Recording

namespace Handle

def recorded (h : Handle σ) : Handle (Recording σ) := { h with target := ⟨h.target, []⟩ }

def bare (h : Handle (Recording σ)) : Handle σ := { h with target := h.target.target }

def calls (h : Handle (Recording σ)) : List Call := h.target.calls

def Adds (h h' : Handle (Recording σ)) (new : List Call) : Prop := h'.calls = h.calls ++ new

def unrecorded (p : α × Handle (Recording σ)) : α × Handle σ := (p.1, p.2.bare)

@[simp] theorem calls_recorded (h : Handle σ) : h.recorded.calls = [] := rfl

@[simp] theorem unrecorded_mk (a : α) (h : Handle (Recording σ)) : unrecorded (a, h) = (a, h.bare) := rfl

/-- A recorded call is answered as if it was not recorded. -/
theorem unrecorded_call (h : Handle (Recording σ)) (f : σ → Except AccessError α × σ)
    (call : Except AccessError α → Call) :
    unrecorded (h.call fun r => r.keep f call) = h.bare.call f := by
  obtain ⟨pid, ⟨target, calls⟩, connected, ram, input⟩ := h
  cases connected with
  | false => rfl
  | true =>
    -- A handle changes by the kind of answer alone: it lets go of a process that is gone.
    simp only [Handle.call, bare, Recording.keep]
    rcases f target with ⟨(⟨⟩ | ⟨⟩) | v, t⟩
    · rfl
    · rfl
    · rfl

theorem Adds.refl (h : Handle (Recording σ)) : Adds h h [] := (List.append_nil _).symm

theorem Adds.trans {h h' h'' : Handle (Recording σ)} {new new' : List Call} (ha : Adds h h' new)
    (ha' : Adds h' h'' new') : Adds h h'' (new ++ new') := by
  rw [Adds, ha', ha, List.append_assoc]

theorem adds_call (h : Handle (Recording σ)) (f : σ → Except AccessError α × σ)
    (call : Except AccessError α → Call) :
    Adds h (h.call fun r => r.keep f call).2
      (if h.connected then [call (h.call fun r => r.keep f call).1] else []) := by
  obtain ⟨pid, ⟨target, calls⟩, connected, ram, input⟩ := h
  cases connected with
  | false => exact (List.append_nil _).symm
  | true =>
    simp only [Handle.call, Recording.keep]
    rcases f target with ⟨(⟨⟩ | ⟨⟩) | v, t⟩
    · rfl
    · rfl
    · rfl

/-- A call on a connected handle is made. -/
theorem adds_of_answer {h h' : Handle (Recording σ)} (hc : h.connected = true)
    {f : σ → Except AccessError α × σ} {call : Except AccessError α → Call} {a : Except AccessError α}
    (ha : (h.call fun r => r.keep f call) = (a, h')) : Adds h h' [call a] := by
  have hadds := adds_call h f call
  rw [ha, if_pos hc] at hadds
  exact hadds

/-- A call that succeeds was made. -/
theorem adds_of_call {h h' : Handle (Recording σ)} {f : σ → Except AccessError α × σ}
    {call : Except AccessError α → Call} {v : α} (hv : (h.call fun r => r.keep f call) = (.ok v, h')) :
    Adds h h' [call (.ok v)] := by
  cases hc : h.connected with
  | false =>
    rw [call_of_disconnected hc] at hv
    cases hv
  | true => exact adds_of_answer hc hv

variable [ProcessMemory σ] {h h' : Handle (Recording σ)} {address length : Nat} {bytes : ByteArray}

theorem unrecorded_read (h : Handle (Recording σ)) (address length : Nat) :
    unrecorded (h.read address length) = h.bare.read address length :=
  unrecorded_call h (ProcessMemory.read · address length) (.read address length)

theorem unrecorded_readInto (h : Handle (Recording σ)) (address : Nat) (buffer : ByteArray) :
    unrecorded (h.readInto address buffer) = h.bare.readInto address buffer := by
  rw [readInto, readInto, ← unrecorded_read]
  rcases h.read address buffer.size with ⟨e | bytes, h'⟩
  · rfl
  · rfl

theorem unrecorded_write (h : Handle (Recording σ)) (address : Nat) (bytes : ByteArray) :
    unrecorded (h.write address bytes) = h.bare.write address bytes :=
  unrecorded_call h (ProcessMemory.write · address bytes) (.write address bytes)

theorem unrecorded_regions (h : Handle (Recording σ)) : unrecorded h.regions = h.bare.regions :=
  unrecorded_call h ProcessMemory.regions .regions

theorem exists_adds_read (h : Handle (Recording σ)) (address length : Nat) :
    ∃ new, Adds h (h.read address length).2 new :=
  ⟨_, adds_call h (ProcessMemory.read · address length) (.read address length)⟩

theorem exists_adds_regions (h : Handle (Recording σ)) : ∃ new, Adds h h.regions.2 new :=
  ⟨_, adds_call h ProcessMemory.regions .regions⟩

theorem adds_of_read (hr : h.read address length = (.ok bytes, h')) :
    Adds h h' [.read address length (.ok bytes)] :=
  adds_of_call (f := (ProcessMemory.read · address length)) hr

theorem adds_of_write (hc : h.connected = true) {r : Except AccessError Unit}
    (hw : h.write address bytes = (r, h')) : Adds h h' [.write address bytes r] :=
  adds_of_answer (f := (ProcessMemory.write · address bytes)) hc hw

theorem adds_of_regions {regions : List Region} (hr : h.regions = (.ok regions, h')) :
    Adds h h' [.regions (.ok regions)] :=
  adds_of_call (f := ProcessMemory.regions) hr

end Handle

end ConsoleBridge
