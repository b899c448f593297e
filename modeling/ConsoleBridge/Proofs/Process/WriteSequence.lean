import ConsoleBridge.Controller.Injector
import ConsoleBridge.Proofs.Process.ImageMemory
import ConsoleBridge.Proofs.Process.Recording

/-!
# Writes one after the other

A sequence of writes ends with the first that fails or whose address goes beyond them. Where a write that fails
changes nothing, the process is left with the writes before it.
-/
namespace ConsoleBridge

open Handle

variable {σ : Type} [ProcessMemory σ]

/-- In the states `stays` a write that succeeds leaves its bytes and changes no others. -/
structure Stores (memory : σ → Nat → UInt8) (stays : σ → Prop) : Prop where
  stores : ∀ s, stays s → ∀ address bytes, (ProcessMemory.write s address bytes).1 = .ok () →
    stays (ProcessMemory.write s address bytes).2 ∧
      memory (ProcessMemory.write s address bytes).2 = overwritten (memory s) address bytes

/-- A write happens fully, or fails and changes nothing. -/
structure AllOrNothing (memory : σ → Nat → UInt8) (stays : σ → Prop) : Prop extends Stores memory stays where
  spares : ∀ s, stays s → ∀ address bytes e, (ProcessMemory.write s address bytes).1 = .error e →
    stays (ProcessMemory.write s address bytes).2 ∧ memory (ProcessMemory.write s address bytes).2 = memory s

/-- Make some writes, up to the first that fails or is beyond the addresses. -/
def Handle.writeAll (h : Handle σ) : List (Nat × ByteArray) → Except InjectError Unit × Handle σ
  | [] => (.ok (), h)
  | (address, bytes) :: rest =>
    if address < Address.count then
      match h.write address bytes with
      | (.ok (), h) => h.writeAll rest
      | (.error e, h) => (.error (.access e), h)
    else (.error (.stopped .overflow), h)

def overwrittenAll (memory : Nat → UInt8) (writes : List (Nat × ByteArray)) : Nat → UInt8 :=
  writes.foldl (fun m w => overwritten m w.1 w.2) memory

def accepted (w : Nat × ByteArray) : Call := .write w.1 w.2 (.ok ())

/-- How a sequence of writes goes: which of them are made, the answer, and the calls. All are made, or those
before one that fails or is beyond the addresses, or none since the process was gone before. -/
inductive Cut (connected : Bool) (writes : List (Nat × ByteArray)) :
    List (Nat × ByteArray) → Except InjectError Unit → List Call → Prop
  | whole (fit : ∀ w ∈ writes, w.1 < Address.count) :
      Cut connected writes writes (.ok ()) (writes.map accepted)
  | short {made address bytes behind e} (order : writes = made ++ (address, bytes) :: behind)
      (fit : ∀ w ∈ made, w.1 < Address.count) (fits : address < Address.count) :
      Cut connected writes made (.error (.access e)) (made.map accepted ++ [.write address bytes (.error e)])
  | stopped {made address bytes behind} (order : writes = made ++ (address, bytes) :: behind)
      (fit : ∀ w ∈ made, w.1 < Address.count) (beyond : Address.count ≤ address) :
      Cut connected writes made (.error (.stopped .overflow)) (made.map accepted)
  | refused {address bytes behind} (gone : connected = false) (order : writes = (address, bytes) :: behind)
      (fits : address < Address.count) : Cut connected writes [] (.error (.access .disconnected)) []

variable {memory : σ → Nat → UInt8} {stays : σ → Prop} {h h' : Handle σ}
variable {address : Nat} {bytes : ByteArray} {writes : List (Nat × ByteArray)}

omit [ProcessMemory σ] in
theorem overwrittenAll_append (m : Nat → UInt8) (front back : List (Nat × ByteArray)) :
    overwrittenAll m (front ++ back) = overwrittenAll (overwrittenAll m front) back := List.foldl_append

theorem Passive.stores {regions : List Region} {fault : Nat → Nat → Option AccessError}
    (hp : Passive regions fault memory stays) : Stores memory stays := ⟨hp.writes⟩

theorem Handle.of_write (hc : h.connected = true) {r : Except AccessError Unit}
    (hw : h.write address bytes = (r, h')) :
    (ProcessMemory.write h.target address bytes).1 = r ∧
      (ProcessMemory.write h.target address bytes).2 = h'.target := by
  have hanswer := fst_call hc (ProcessMemory.write · address bytes)
  have htarget := target_call hc (ProcessMemory.write · address bytes)
  rw [write] at hw
  rw [hw] at hanswer htarget
  exact ⟨hanswer.symm, htarget.symm⟩

theorem Handle.of_write_recording {h h' : Handle (Recording σ)} (hc : h.connected = true)
    {r : Except AccessError Unit} (hw : h.write address bytes = (r, h')) :
    (ProcessMemory.write h.target.target address bytes).1 = r ∧
      (ProcessMemory.write h.target.target address bytes).2 = h'.target.target := by
  obtain ⟨hanswer, htarget⟩ := Handle.of_write hc hw
  exact ⟨hanswer, congrArg Recording.target htarget⟩

namespace Stores

theorem of_write (hs : Stores memory stays) (hh : Steady stays h) (hw : h.write address bytes = (.ok (), h')) :
    Steady stays h' ∧ memory h'.target = overwritten (memory h.target) address bytes := by
  obtain ⟨hanswer, htarget⟩ := Handle.of_write hh.connected hw
  obtain ⟨hstays, hmemory⟩ := hs.stores h.target hh.target address bytes hanswer
  have hends := write_ends hh.connected address bytes
  rw [hw] at hends
  rw [htarget] at hstays hmemory
  cases hends with
  | found keeps => exact ⟨⟨keeps.connected, hstays⟩, hmemory⟩

theorem of_writeAll (hs : Stores memory stays) (hh : Steady stays h) (hw : h.writeAll writes = (.ok (), h')) :
    Steady stays h' ∧ memory h'.target = overwrittenAll (memory h.target) writes := by
  induction writes generalizing h with
  | nil =>
    cases hw
    exact ⟨hh, rfl⟩
  | cons w rest ih =>
    rw [writeAll] at hw
    split at hw
    · rcases hwrite : h.write w.1 w.2 with ⟨e | ⟨⟩, h₁⟩
      · rw [hwrite] at hw
        cases hw
      · rw [hwrite] at hw
        obtain ⟨hh₁, hmemory⟩ := hs.of_write hh hwrite
        obtain ⟨hh', hrest⟩ := ih hh₁ hw
        refine ⟨hh', ?_⟩
        rw [hrest, hmemory]
        rfl
    · cases hw

/-- Writes that are each accepted are all made. -/
theorem writeAll_ok (hs : Stores memory stays) (hh : Steady stays h)
    (haccepts : ∀ w ∈ writes, w.1 < Address.count ∧
      ∀ s, stays s → (ProcessMemory.write s w.1 w.2).1 = .ok ()) :
    (h.writeAll writes).1 = .ok () := by
  induction writes generalizing h with
  | nil => rfl
  | cons w rest ih =>
    obtain ⟨hfits, haccept⟩ := haccepts w List.mem_cons_self
    have hok : (h.write w.1 w.2).1 = .ok () := by
      rw [write, fst_call hh.connected]
      exact haccept h.target hh.target
    rw [writeAll, if_pos hfits]
    rcases hwrite : h.write w.1 w.2 with ⟨e | ⟨⟩, h₁⟩
    · rw [hwrite] at hok
      cases hok
    · exact ih (hs.of_write hh hwrite).1 fun w' hw' => haccepts w' (List.mem_cons_of_mem w hw')

end Stores

namespace Handle

theorem writeAll_append (h : Handle σ) (front back : List (Nat × ByteArray)) :
    h.writeAll (front ++ back) =
      match h.writeAll front with
      | (.ok (), h) => h.writeAll back
      | (.error e, h) => (.error e, h) := by
  induction front generalizing h with
  | nil => rfl
  | cons w rest ih =>
    rw [List.cons_append, writeAll, writeAll]
    split
    · rcases h.write w.1 w.2 with ⟨e | ⟨⟩, h'⟩
      · rfl
      · exact ih h'
    · rfl

theorem fit_of_writeAll (hok : (h.writeAll writes).1 = .ok ()) : ∀ w ∈ writes, w.1 < Address.count := by
  induction writes generalizing h with
  | nil => exact List.forall_mem_nil _
  | cons w rest ih =>
    rw [writeAll] at hok
    split at hok
    · rename_i hfits
      rcases hwrite : h.write w.1 w.2 with ⟨e | ⟨⟩, h₁⟩
      · rw [hwrite] at hok
        cases hok
      · rw [hwrite] at hok
        exact List.forall_mem_cons.mpr ⟨hfits, ih hok⟩
    · cases hok

theorem writeAll_of_beyond {w : Nat × ByteArray} (hw : Address.count ≤ w.1) (rest : List (Nat × ByteArray)) :
    h.writeAll (w :: rest) = (.error (.stopped .overflow), h) := by
  rw [writeAll, if_neg (Nat.not_lt.mpr hw)]

theorem writeAll_of_disconnected (hc : h.connected = false) {w : Nat × ByteArray} (hw : w.1 < Address.count)
    (rest : List (Nat × ByteArray)) : h.writeAll (w :: rest) = (.error (.access .disconnected), h) := by
  rw [writeAll, if_pos hw, write, call_of_disconnected hc]

theorem connected_of_writeAll (hok : (h.writeAll writes).1 = .ok ()) (hsome : writes ≠ []) :
    h.connected = true := by
  obtain ⟨w, rest, rfl⟩ := List.exists_cons_of_ne_nil hsome
  have hfits := fit_of_writeAll hok w List.mem_cons_self
  rw [← Bool.not_eq_false]
  intro hc
  rw [writeAll_of_disconnected hc hfits] at hok
  cases hok

/-- No write is about a player. -/
theorem writeAll_ne_invalidPlayer (h : Handle σ) (writes : List (Nat × ByteArray)) (player : Nat) :
    (h.writeAll writes).1 ≠ .error (.invalidPlayer player) := by
  induction writes generalizing h with
  | nil => exact nofun
  | cons w rest ih =>
    rw [writeAll]
    split
    · rcases h.write w.1 w.2 with ⟨e | ⟨⟩, h'⟩
      · exact nofun
      · exact ih h'
    · exact nofun

private theorem unrecorded_writeAll (h : Handle (Recording σ)) (writes : List (Nat × ByteArray)) :
    unrecorded (h.writeAll writes) = h.bare.writeAll writes := by
  induction writes generalizing h with
  | nil => rfl
  | cons w rest ih =>
    rw [writeAll, writeAll, ← unrecorded_write]
    split
    · rcases h.write w.1 w.2 with ⟨e | ⟨⟩, h'⟩
      · rfl
      · exact ih h'
    · rfl

end Handle

omit [ProcessMemory σ] in
/-- A write that succeeds comes before the others. -/
theorem Cut.cons {made rest : List (Nat × ByteArray)} {r : Except InjectError Unit} {calls : List Call}
    (hcut : Cut true rest made r calls) {w : Nat × ByteArray} (hw : w.1 < Address.count) :
    Cut true (w :: rest) (w :: made) r ([accepted w] ++ calls) := by
  cases hcut with
  | whole fit => exact .whole (List.forall_mem_cons.mpr ⟨hw, fit⟩)
  | short order fit fits =>
    exact .short (congrArg (w :: ·) order) (List.forall_mem_cons.mpr ⟨hw, fit⟩) fits
  | stopped order fit beyond =>
    exact .stopped (congrArg (w :: ·) order) (List.forall_mem_cons.mpr ⟨hw, fit⟩) beyond
  | refused gone order fits => cases gone

private theorem writeAll_recording (hs : AllOrNothing memory stays) {h : Handle (Recording σ)}
    (ht : stays h.target.target) (writes : List (Nat × ByteArray)) :
    ∃ made new, Cut h.connected writes made (h.writeAll writes).1 new ∧ Adds h (h.writeAll writes).2 new ∧
      stays (h.writeAll writes).2.target.target ∧
      memory (h.writeAll writes).2.target.target = overwrittenAll (memory h.target.target) made := by
  induction writes generalizing h with
  | nil => exact ⟨[], [], .whole (List.forall_mem_nil _), .refl h, ht, rfl⟩
  | cons w rest ih =>
    by_cases hfits : w.1 < Address.count
    · cases hc : h.connected with
      | false =>
        rw [writeAll_of_disconnected hc hfits]
        exact ⟨[], [], .refused rfl rfl hfits, .refl h, ht, rfl⟩
      | true =>
        obtain ⟨address, bytes⟩ := w
        rw [writeAll, if_pos hfits]
        rcases hw : h.write address bytes with ⟨e | ⟨⟩, h'⟩
        · obtain ⟨hanswer, htarget⟩ := Handle.of_write_recording hc hw
          obtain ⟨hstays, hmemory⟩ := hs.spares h.target.target ht address bytes e hanswer
          rw [htarget] at hstays hmemory
          exact ⟨[], _, .short (List.nil_append _).symm (List.forall_mem_nil _) hfits, adds_of_write hc hw,
            hstays, hmemory⟩
        · obtain ⟨hanswer, htarget⟩ := Handle.of_write_recording hc hw
          obtain ⟨hstays, hmemory⟩ := hs.stores h.target.target ht address bytes hanswer
          rw [htarget] at hstays hmemory
          have hc' : h'.connected = true := by
            have hends := write_ends hc address bytes
            rw [hw] at hends
            cases hends with
            | found keeps => exact keeps.connected
          obtain ⟨made, new, hcut, hadds, hstays', hmemory'⟩ := ih hstays
          rw [hc'] at hcut
          refine ⟨_, _, hcut.cons hfits, (adds_of_write hc hw).trans hadds, hstays', ?_⟩
          rw [hmemory', hmemory]
          rfl
    · have hbeyond := Nat.not_lt.mp hfits
      rw [writeAll_of_beyond hbeyond]
      exact ⟨[], [], .stopped (List.nil_append _).symm (List.forall_mem_nil _) hbeyond, .refl h, ht, rfl⟩

/-- Where writes happen fully or not at all, a sequence of them is cut short by the first that fails or is beyond
the addresses, and what was made before it is what changes. -/
theorem writeAll_cut (hs : AllOrNothing memory stays) (ht : stays h.target)
    (writes : List (Nat × ByteArray)) :
    ∃ made, Cut h.connected writes made (h.writeAll writes).1 (h.recorded.writeAll writes).2.calls ∧
      stays (h.writeAll writes).2.target ∧
      memory (h.writeAll writes).2.target = overwrittenAll (memory h.target) made := by
  obtain ⟨made, new, hcut, hadds, hstays, hmemory⟩ := writeAll_recording hs (h := h.recorded) ht writes
  have hbare : unrecorded (h.recorded.writeAll writes) = h.writeAll writes := unrecorded_writeAll h.recorded writes
  rw [Adds, calls_recorded, List.nil_append] at hadds
  rw [← hbare, hadds]
  exact ⟨made, hcut, hstays, hmemory⟩

/-- An image whose regions lie apart is written to fully or not at all. -/
theorem ImageProcess.allOrNothing :
    AllOrNothing ImageProcess.memory
      fun p => (p.regions.map ImageRegion.describe).Pairwise Region.Apart where
  stores p happart address bytes hok := by
    obtain ⟨-, hdescribe, hmemory⟩ := of_writeAs happart hok
    refine ⟨?_, hmemory⟩
    rw [← hdescribe] at happart
    exact happart
  spares p happart address bytes e he := by
    have hsame : (ProcessMemory.write p address bytes).2 = p := writeAs_error he
    rw [hsame]
    exact ⟨happart, rfl⟩

theorem ImageProcess.runs_write {regions : List Region} (happart : regions.Pairwise Region.Apart)
    {p : ImageProcess} (hp : Runs regions p) (address : Nat) (bytes : ByteArray) :
    Runs regions (p.write address bytes).2 ∧
      ∀ a, a < address ∨ address + bytes.size ≤ a → (p.write address bytes).2.memory a = p.memory a := by
  cases hw : (p.write address bytes).1 with
  | ok =>
    obtain ⟨hruns, hmemory⟩ := (passive happart).writes p hp address bytes hw
    refine ⟨hruns, fun a ha => ?_⟩
    exact (congrFun hmemory a).trans (overwritten_outside ha)
  | error e =>
    have hsame : (p.write address bytes).2 = p := writeAs_error hw
    rw [hsame]
    exact ⟨hp, fun _ _ => rfl⟩

end ConsoleBridge
