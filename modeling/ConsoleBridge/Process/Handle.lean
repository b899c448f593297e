import ConsoleBridge.Discovery.Found
import ConsoleBridge.Process.Memory

/-! # The handle on a foreign process

A handle is connected until it is let go or a call finds the process gone. From then on every access fails
without the process being called. What was discovered through the handle is forgotten then. -/
namespace ConsoleBridge

/-- A handle on the process `target`, which goes on existing when the handle is let go. -/
structure Handle (σ : Type) where
  pid : Nat
  target : σ
  connected : Bool
  ram : Option Found
  input : Option Found
  deriving Inhabited

namespace Handle

variable {σ α : Type}

def attach (pid : Nat) (target : σ) : Handle σ := ⟨pid, target, true, none, none⟩

/-- Let the process go and forget what was discovered. -/
def disconnect (h : Handle σ) : Handle σ := { h with connected := false, ram := none, input := none }

/-- Call the process, if it is connected; a call that finds it gone disconnects the handle. -/
def call (h : Handle σ) (f : σ → Except AccessError α × σ) : Except AccessError α × Handle σ :=
  match h with
  | ⟨pid, target, false, ram, input⟩ => (.error .disconnected, ⟨pid, target, false, ram, input⟩)
  | ⟨pid, target, true, ram, input⟩ =>
    match f target with
    | (.error .disconnected, target) =>
      (.error .disconnected, disconnect ⟨pid, target, true, ram, input⟩)
    | (r, target) => (r, ⟨pid, target, true, ram, input⟩)

variable [ProcessMemory σ]

def read (h : Handle σ) (address length : Nat) : Except AccessError ByteArray × Handle σ :=
  h.call fun s => ProcessMemory.read s address length

/-- What a read that has just failed brought all the same; nothing comes from a process that is gone. -/
def arrived (h : Handle σ) (address length : Nat) : ByteArray :=
  if h.connected then ProcessMemory.arrived h.target address length else ByteArray.empty

/-- Fill a buffer from `address` on. A read that fails leaves in front of the buffer what it brought. -/
def readInto (h : Handle σ) (address : Nat) (buffer : ByteArray) :
    (Except AccessError Unit × ByteArray) × Handle σ :=
  match h.read address buffer.size with
  | (.ok bytes, h) => ((.ok (), bytes), h)
  | (.error e, h) => ((.error e, Bytes.paste buffer 0 (h.arrived address buffer.size)), h)

def write (h : Handle σ) (address : Nat) (bytes : ByteArray) : Except AccessError Unit × Handle σ :=
  h.call fun s => ProcessMemory.write s address bytes

def regions (h : Handle σ) : Except AccessError (List Region) × Handle σ :=
  h.call ProcessMemory.regions

omit [ProcessMemory σ] in
theorem fst_call_eq_ok {h : Handle σ} {f : σ → Except AccessError α × σ} {v : α}
    (hv : (h.call f).1 = .ok v) : (f h.target).1 = .ok v := by
  unfold call at hv
  split at hv
  · cases hv
  · split at hv
    · cases hv
    · rename_i hr
      simp only at hv ⊢
      rw [hr, hv]

theorem size_of_read {h : Handle σ} {address length : Nat} {b : ByteArray}
    (hb : (h.read address length).1 = .ok b) : b.size = length :=
  ProcessMemory.size_of_read (Prod.ext (fst_call_eq_ok hb) rfl)

end Handle

end ConsoleBridge
