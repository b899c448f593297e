import Mathlib.Data.List.Induction
import ConsoleBridge.Proofs.Bus.SerialWrites

/-!
# When the serial interrupt is up

The interrupt is kept twice, in the status of the serial interface and as a line of the interrupt controller.
Both are up exactly while a transfer has been started that nothing has acknowledged since, whatever else was
done to the console. Reads take no part in this: they give a value and leave no other console.
-/
namespace ConsoleBridge

open Bytes Bus

def Operation.Starts : Operation → Prop
  | .write w => w.target = fromPifWord ∨ w.target = toPifWord
  | _ => False

/-- Does the operation take the interrupt back? -/
def Operation.Acknowledges : Operation → Prop
  | .write w => w.target = statusWord
  | .reset => True
  | _ => False

/-- Was a transfer started that nothing has acknowledged since? -/
def Outstanding (os : List Operation) : Prop :=
  ∃ before o after, os = before ++ o :: after ∧ o.Starts ∧ ∀ o' ∈ after, ¬ o'.Acknowledges

private theorem not_outstanding_nil : ¬ Outstanding [] := by
  rintro ⟨before, o, after, hos, -, -⟩
  simp at hos

theorem outstanding_concat {os : List Operation} {o : Operation} :
    Outstanding (os ++ [o]) ↔ o.Starts ∨ Outstanding os ∧ ¬ o.Acknowledges := by
  constructor
  · rintro ⟨before, o', after, hos, hstarts, hafter⟩
    rcases List.eq_nil_or_concat after with rfl | ⟨after, last, rfl⟩
    · obtain ⟨-, ho⟩ := List.append_inj' hos rfl
      obtain rfl : o = o' := by simpa using ho
      exact .inl hstarts
    · have hos : os ++ [o] = (before ++ o' :: after) ++ [last] := by simpa using hos
      obtain ⟨rfl, ho⟩ := List.append_inj' hos rfl
      obtain rfl : o = last := by simpa using ho
      refine .inr ⟨⟨before, o', after, rfl, hstarts, fun x hx => hafter x ?_⟩, hafter o ?_⟩
      · simp [hx]
      · simp
  · rintro (hstarts | ⟨⟨before, o', after, rfl, hstarts, hafter⟩, ho⟩)
    · exact ⟨os, o, [], rfl, hstarts, by simp⟩
    · refine ⟨before, o', after ++ [o], by simp, hstarts, fun x hx => ?_⟩
      rcases List.mem_append.mp hx with hx | hx
      · exact hafter x hx
      · rwa [List.mem_singleton.mp hx]

namespace Console

variable {c c' : Console} {up up' : Prop} {a : UInt32}

/-- Both devices show that the interrupt is up, or both that it is not. -/
structure Signals (c : Console) (up : Prop) : Prop where
  raised : up → c.si.status = SerialInterface.interruptBit ∧ c.mi.lines = InterruptController.serialLine
  lowered : ¬ up → c.si.status = 0 ∧ c.mi.lines = 0

theorem Signals.same (hc : c.Signals up) (hstatus : c'.si.status = c.si.status)
    (hlines : c'.mi.lines = c.mi.lines) (hup : up' ↔ up) : c'.Signals up' := by
  constructor
  · intro h
    rw [hstatus, hlines]
    exact hc.raised (hup.mp h)
  · intro h
    rw [hstatus, hlines]
    exact hc.lowered fun h' => h (hup.mpr h')

/-- A transfer raises both, be they up or not. -/
theorem Signals.transferred (hc : c.Signals up) (transfer : Transfer) (v : UInt32) (hup : up') :
    (c.transferred transfer v).Signals up' := by
  have hstatus : (c.transferred transfer v).si.status = c.si.status ||| SerialInterface.interruptBit := by
    cases transfer with
    | toPif start => rfl
    | fromPif start => rfl
  have hlines : (c.transferred transfer v).mi.lines = c.mi.lines ||| InterruptController.serialLine := by
    cases transfer with
    | toPif start => rfl
    | fromPif start => rfl
  refine ⟨fun _ => ?_, fun h => absurd hup h⟩
  rw [hstatus, hlines]
  by_cases h : up
  · rw [(hc.raised h).1, (hc.raised h).2, UInt32.or_self, UInt32.or_self]
    exact ⟨rfl, rfl⟩
  · rw [(hc.lowered h).1, (hc.lowered h).2, UInt32.zero_or, UInt32.zero_or]
    exact ⟨rfl, rfl⟩

/-- A write to the status lowers both. -/
theorem Signals.acknowledged (hc : c.Signals up)
    (hstatus : c'.si.status = c.si.status &&& ~~~SerialInterface.interruptBit)
    (hlines : c'.mi.lines = c.mi.lines &&& ~~~InterruptController.serialLine) (hup : ¬ up') :
    c'.Signals up' := by
  refine ⟨fun h => absurd h hup, fun _ => ?_⟩
  rw [hstatus, hlines]
  by_cases h : up
  · rw [(hc.raised h).1, (hc.raised h).2]
    exact ⟨rfl, rfl⟩
  · rw [(hc.lowered h).1, (hc.lowered h).2, UInt32.zero_and, UInt32.zero_and]
    exact ⟨rfl, rfl⟩

/-- What one operation makes of the interrupt. -/
theorem Signals.apply (hc : c.Signals up) (o : Operation) :
    (c.apply o).Signals (o.Starts ∨ up ∧ ¬ o.Acknowledges) := by
  cases o with
  | write w =>
    have hstep := serialStep_perform c w
    rw [Console.apply]
    generalize c.perform w = c' at hstep
    cases hstep with
    | dram v hw =>
      refine hc.same rfl rfl ?_
      simp [Operation.Starts, Operation.Acknowledges, hw, dramWord, fromPifWord, toPifWord, statusWord]
    | fromPif v hw => exact hc.transferred _ v (.inl (.inl hw))
    | toPif v hw => exact hc.transferred _ v (.inl (.inr hw))
    | status hw =>
      refine hc.acknowledged rfl rfl ?_
      simp [Operation.Starts, Operation.Acknowledges, hw, fromPifWord, toPifWord, statusWord]
    | apart hw hsi hlines =>
      refine hc.same (congrArg _ hsi) hlines ?_
      simp only [serialWords, List.mem_cons, List.not_mem_nil, or_false, not_or] at hw
      simp [Operation.Starts, Operation.Acknowledges, hw]
  | reset =>
    refine ⟨fun h => ?_, fun _ => ⟨rfl, rfl⟩⟩
    simp [Operation.Starts, Operation.Acknowledges] at h
  | _ =>
    refine hc.same rfl rfl ?_
    simp [Operation.Starts, Operation.Acknowledges]

private theorem signals_new (k : Cartridge) : (new k).Signals (Outstanding []) :=
  ⟨fun h => absurd h not_outstanding_nil, fun _ => ⟨rfl, rfl⟩⟩

/-- The interrupt over a whole run. -/
theorem signals_foldl (k : Cartridge) (os : List Operation) :
    (os.foldl Console.apply (new k)).Signals (Outstanding os) := by
  induction os using List.reverseRecOn with
  | nil => exact signals_new k
  | append_singleton os o ih =>
    rw [List.foldl_append, List.foldl_cons, List.foldl_nil]
    exact ⟨fun h => (ih.apply o).raised (outstanding_concat.mp h),
      fun h => (ih.apply o).lowered fun h' => h (outstanding_concat.mpr h')⟩

private theorem masked_foldl (k : Cartridge) (os : List Operation) : (os.foldl Console.apply (new k)).Masked := by
  induction os using List.reverseRecOn with
  | nil => exact masked_new k
  | append_singleton os o ih =>
    rw [List.foldl_append, List.foldl_cons, List.foldl_nil]
    exact ih.apply o

theorem read32_of_wordAt? {backing : Backing} {offset : Nat} (hat : wordAt? a = some (backing, offset)) :
    c.read32 a = c.readBacking backing offset := by
  rw [read32, hat]

/-- After any operations on a new console, the status of the serial interface and the interrupt lines are both
zero or both show the one interrupt, up exactly while a transfer is outstanding; the processor sees it when the
mask lets it through; and the address of the serial interface is that of a word of main memory. -/
theorem interrupt_iff_outstanding (k : Cartridge) (os : List Operation) :
    let c := os.foldl Console.apply (new k)
    (Outstanding os ∧ c.read32 0x04800018 = 0x1000 ∧ c.read32 0x04300008 = 0x2 ∨
        ¬ Outstanding os ∧ c.read32 0x04800018 = 0 ∧ c.read32 0x04300008 = 0) ∧
      (c.interruptPending = true ↔ Outstanding os ∧ c.read32 0x0430000C &&& 0x2 ≠ 0) ∧
      (c.read32 0x04800000).toNat % 4 = 0 ∧ (c.read32 0x04800000).toNat < 0x800000 := by
  intro c
  have hsignals : c.Signals (Outstanding os) := signals_foldl k os
  have hstatus : c.read32 0x04800018 = c.readBacking (.registers .si) 0x18 := read32_of_wordAt? (by decide)
  have hlines : c.read32 0x04300008 = c.readBacking (.registers .mi) 0x8 := read32_of_wordAt? (by decide)
  have hmask : c.read32 0x0430000C = c.readBacking (.registers .mi) 0xC := read32_of_wordAt? (by decide)
  have hdram : c.read32 0x04800000 = c.readBacking (.registers .si) 0x0 := read32_of_wordAt? (by decide)
  rw [hstatus, hlines, hmask, hdram, interruptPending, InterruptController.pending, bne_iff_ne]
  refine ⟨?_, ?_, (masked_foldl k os).bounds⟩
  · by_cases h : Outstanding os
    · exact .inl ⟨h, hsignals.raised h⟩
    · exact .inr ⟨h, hsignals.lowered h⟩
  · by_cases h : Outstanding os
    · rw [(hsignals.raised h).2, UInt32.and_comm]
      exact ⟨fun hne => ⟨h, hne⟩, fun hne => hne.2⟩
    · rw [(hsignals.lowered h).2, UInt32.zero_and]
      exact ⟨fun hne => absurd rfl hne, fun hne => absurd hne.1 h⟩

end Console

end ConsoleBridge
