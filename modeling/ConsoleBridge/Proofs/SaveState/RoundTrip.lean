import ConsoleBridge.Proofs.Json.Reading
import ConsoleBridge.Proofs.SaveState.Rollback
import ConsoleBridge.Proofs.Text.Base64
import ConsoleBridge.SaveState.Format

/-!
# A save state is read back from its text

Memory comes back from Base64 byte by byte and each member is read once, so the whole state comes back. Restored
into a console of the same sizes, it brings back the memory that was captured.
-/
namespace ConsoleBridge

open Json Bytes

variable {rest : List Char}

section Bytes

private theorem flatMap_escape {cs : List Char} (h : ∀ c ∈ cs, Base64.Plain c) : cs.flatMap escape = cs := by
  have hescape : ∀ c, Base64.Plain c → escape c = [c] := by
    rintro c ⟨hq, hb, hc⟩
    rw [escape, if_neg hq, if_neg hb, if_pos hc]
  induction cs with
  | nil => rfl
  | cons c cs ih =>
    rw [List.flatMap_cons, hescape c (h c List.mem_cons_self), ih fun d hd => h d (List.mem_cons_of_mem _ hd)]
    rfl

/-- A text of bytes stands between quotes as it is. -/
theorem tokens_encode (b : ByteArray) :
    tokens ('"' :: ((Base64.encode b).toList ++ '"' :: rest)) =
      .string (.ok (Base64.encode b)) none :: tokens rest := by
  have htext : '"' :: ((Base64.encode b).toList ++ '"' :: rest) = (stringText (Base64.encode b)).toList ++ rest := by
    rw [stringText, String.toList_ofList, flatMap_escape (Base64.plain_encode b)]
    simp
  rw [htext, tokens_stringText]

theorem bytesOfString_encode (b : ByteArray) : bytesOfString (Base64.encode b) = .ok b := by
  rw [bytesOfString, Base64.decode_encode]

private theorem reads_bytes (b : ByteArray) :
    Reads readBytes (tokens ('"' :: ((Base64.encode b).toList ++ '"' :: rest))) b (tokens rest) := by
  rw [tokens_encode]
  refine ⟨Nat.lt_succ_self _, ?_⟩
  rw [readBytes, readString]
  simp only [bytesOfString_encode]
  rfl

def optionalText (save : Option ByteArray) : List Char :=
  match save with
  | some save => '"' :: ((Base64.encode save).toList ++ ['"'])
  | none => "null".toList

/-- Bytes that are missing and bytes of which there are none stay apart. -/
theorem reads_optionalBytes (save : Option ByteArray) :
    Reads readOptionalBytes (tokens (optionalText save ++ rest)) save (tokens rest) := by
  cases save with
  | none =>
    rw [optionalText, tokens_null]
    exact ⟨Nat.lt_succ_self _, rfl⟩
  | some save =>
    have htext : optionalText (some save) ++ rest = '"' :: ((Base64.encode save).toList ++ '"' :: rest) := by
      simp [optionalText]
    rw [htext, tokens_encode]
    refine ⟨Nat.lt_succ_self _, ?_⟩
    simp only [readOptionalBytes, readOptionalString, Reader.map, readString, bytesOfString_encode]
    rfl

end Bytes

namespace MemoryState

private theorem toList_text (m : MemoryState) :
    m.text.toList ++ rest = '\x7b' :: ((stringText "rdram").toList ++ ':' :: '"' ::
      ((Base64.encode m.rdram).toList ++ '"' :: ',' :: ((stringText "cartridgeRam").toList ++ ':' ::
        (optionalText m.cartridgeRam ++ '\x7d' :: rest)))) := by
  have hrdram : (stringText "rdram").toList = "\"rdram\"".toList := by decide
  have hsave : (stringText "cartridgeRam").toList = "\"cartridgeRam\"".toList := by decide
  rw [hrdram, hsave, text]
  cases m.cartridgeRam with
  | none => simp [optionalText]
  | some save => simp [optionalText]

private theorem reads_text (m : MemoryState) : Reads read (tokens (m.text.toList ++ rest)) m (tokens rest) := by
  have hrdram : member "rdram" ⟨none, none⟩ = .ok (Reader.map (fun v => ⟨some v, none⟩) readBytes) := by
    simp [member, once]
  have hsave : member "cartridgeRam" ⟨some m.rdram, none⟩ =
      .ok (Reader.map (fun v => ⟨some m.rdram, some v⟩) readOptionalBytes) := by
    simp [member, once]
  have hseen := reads_members_first hrdram ((reads_bytes m.rdram).map _)
    (reads_members_next hsave ((reads_optionalBytes m.cartridgeRam).map _) (reads_members_end _ false rest))
  obtain ⟨hlt, heq⟩ := hseen
  rw [toList_text, tokens_openObject]
  refine ⟨Nat.lt_succ_of_lt hlt, ?_⟩
  rw [read, heq]
  rfl

end MemoryState

namespace SaveState

/-- A save state that its file format holds: the processors' states are values without doubles, with at most 126
containers inside one another, and the counts fit 64 bits. -/
structure Portable (s : SaveState) : Prop where
  cpu : s.cpuState.Whole 126
  rsp : s.rspState.Whole 126
  rdp : s.rdpState.Whole 126
  frames : s.frameCount < 0x10000000000000000
  cycles : s.cycleCount < 0x10000000000000000

private theorem toList_toJson (s : SaveState) :
    s.toJson.toList = '\x7b' :: ((stringText "cpuState").toList ++ ':' :: (s.cpuState.text.toList ++
      ',' :: ((stringText "memoryState").toList ++ ':' :: (s.memoryState.text.toList ++
      ',' :: ((stringText "rspState").toList ++ ':' :: (s.rspState.text.toList ++
      ',' :: ((stringText "rdpState").toList ++ ':' :: (s.rdpState.text.toList ++
      ',' :: ((stringText "frameCount").toList ++ ':' :: ((toString s.frameCount).toList ++
      ',' :: ((stringText "cycleCount").toList ++ ':' :: ((toString s.cycleCount).toList ++ ['\x7d']))))))))))))  := by
  have hcpu : (stringText "cpuState").toList = "\"cpuState\"".toList := rfl
  have hmemory : (stringText "memoryState").toList = "\"memoryState\"".toList := rfl
  have hrsp : (stringText "rspState").toList = "\"rspState\"".toList := rfl
  have hrdp : (stringText "rdpState").toList = "\"rdpState\"".toList := rfl
  have hframes : (stringText "frameCount").toList = "\"frameCount\"".toList := rfl
  have hcycles : (stringText "cycleCount").toList = "\"cycleCount\"".toList := rfl
  unfold toJson
  simp only [hcpu, hmemory, hrsp, hrdp, hframes, hcycles]
  simp

/-- What has been read of a save state when all of it has. -/
def seen (s : SaveState) : Seen :=
  ⟨some s.cpuState, some s.memoryState, some s.rspState, some s.rdpState, some s.frameCount, some s.cycleCount⟩

private theorem reads_members_toJson {s : SaveState} (h : s.Portable) :
    ∃ ts, tokens s.toJson.toList = .openObject :: ts ∧
      Reads (readMembers member ⟨none, none, none, none, none, none⟩ true) ts s.seen (tokens []) := by
  obtain ⟨cpu, memory, rsp, rdp, frames, cycles⟩ := s
  have hcpu : member "cpuState" ⟨none, none, none, none, none, none⟩ =
      .ok (Reader.map (fun v => ⟨some v, none, none, none, none, none⟩) (readValue levels)) := by
    simp [member, once]
  have hmemory : member "memoryState" ⟨some cpu, none, none, none, none, none⟩ =
      .ok (Reader.map (fun v => ⟨some cpu, some v, none, none, none, none⟩) MemoryState.read) := by
    simp [member, once]
  have hrsp : member "rspState" ⟨some cpu, some memory, none, none, none, none⟩ =
      .ok (Reader.map (fun v => ⟨some cpu, some memory, some v, none, none, none⟩) (readValue levels)) := by
    simp [member, once]
  have hrdp : member "rdpState" ⟨some cpu, some memory, some rsp, none, none, none⟩ =
      .ok (Reader.map (fun v => ⟨some cpu, some memory, some rsp, some v, none, none⟩) (readValue levels)) := by
    simp [member, once]
  have hframes : member "frameCount" ⟨some cpu, some memory, some rsp, some rdp, none, none⟩ =
      .ok (Reader.map (fun v => ⟨some cpu, some memory, some rsp, some rdp, some v, none⟩) readCount) := by
    simp [member, once]
  have hcycles : member "cycleCount" ⟨some cpu, some memory, some rsp, some rdp, some frames, none⟩ =
      .ok (Reader.map (fun v => ⟨some cpu, some memory, some rsp, some rdp, some frames, some v⟩) readCount) := by
    simp [member, once]
  rw [toList_toJson, tokens_openObject]
  refine ⟨_, rfl, ?_⟩
  apply reads_members_first hcpu ((readBack_of_whole h.cpu _ ends_comma).map _)
  apply reads_members_next hmemory ((MemoryState.reads_text memory).map _)
  apply reads_members_next hrsp ((readBack_of_whole h.rsp _ ends_comma).map _)
  apply reads_members_next hrdp ((readBack_of_whole h.rdp _ ends_comma).map _)
  apply reads_members_next hframes ((reads_count h.frames ends_comma).map _)
  apply reads_members_next hcycles ((reads_count h.cycles ends_closeObject).map _)
  exact reads_members_end _ false []

theorem ofJson_of_portable {s : SaveState} (h : s.Portable) : ofJson s.toJson = .ok s := by
  obtain ⟨ts, htokens, hlt, heq⟩ := reads_members_toJson h
  rw [ofJson, htokens, ofTokens, read, heq]
  simp only [tokens_nil]
  rfl

/-- A save state is read back from its text; and the state of a console, written, read and restored into a console with
as much save memory, brings back the memory that was captured. -/
theorem ofJson_toJson :
    (∀ s : SaveState, s.Portable → ofJson s.toJson = .ok s) ∧
      ∀ c c' : Console, c.Reachable → c'.Reachable →
        c'.cartridge.save?.map ByteArray.size = c.cartridge.save?.map ByteArray.size →
        ∀ cpu rsp rdp frames cycles, (capture c cpu rsp rdp frames cycles).Portable →
          ∃ s, ofJson (capture c cpu rsp rdp frames cycles).toJson = .ok s ∧
            (s.restore c').getState = c.getState := by
  refine ⟨fun s => ofJson_of_portable, fun c c' hc hc' hsave cpu rsp rdp frames cycles h => ?_⟩
  have hram : c.rdram.size = c'.rdram.size := by
    obtain ⟨save, hsizes⟩ := hc.sizes_eq
    obtain ⟨save', hsizes'⟩ := hc'.sizes_eq
    exact (congrArg Console.Sizes.rdram hsizes).trans (congrArg Console.Sizes.rdram hsizes').symm
  exact ⟨_, ofJson_of_portable h, Console.getState_setState hram hsave.symm⟩

/-- Names with escapes, nested containers, the largest and the smallest integer, and save memory of no bytes. -/
theorem ofJson_toJson_extremes :
    let cpu :=
      Json.Value.object [("\"", .array [.null, .number (.integer (-0x8000000000000000))]), ("pc\n", .object [])]
    let rdp := Json.Value.number (.integer 0xFFFFFFFFFFFFFFFF)
    let c₀ := Console.new (.ofRom .empty (some 0))
    let c := c₀.apply (.write (.word 0xA0000010 0x11223344))
    ofJson (SaveState.mk cpu ⟨⟨#[1, 2]⟩, some ⟨#[]⟩⟩ (.string "\\") rdp 0xFFFFFFFFFFFFFFFF 0).toJson =
        .ok (SaveState.mk cpu ⟨⟨#[1, 2]⟩, some ⟨#[]⟩⟩ (.string "\\") rdp 0xFFFFFFFFFFFFFFFF 0) ∧
      ∃ s, ofJson (capture c cpu .null rdp 1 2).toJson = .ok s ∧
        (s.restore c₀).getState = c.getState := by
  intro cpu rdp c₀ c
  have harray : (Json.Value.array [.null, .number (.integer (-0x8000000000000000))]).Whole 125 :=
    .array (List.forall_mem_cons.mpr ⟨.null, List.forall_mem_singleton.mpr (.integer (by decide) (by decide))⟩)
  have hobject : (Json.Value.object []).Whole 125 := .object .nil fun m hm => absurd hm List.not_mem_nil
  have hcpu : cpu.Whole 126 :=
    .object (List.pairwise_pair.mpr (by decide))
      (List.forall_mem_cons.mpr ⟨harray, List.forall_mem_singleton.mpr hobject⟩)
  have hrdp : rdp.Whole 126 := .integer (by decide) (by decide)
  have hsave : c₀.cartridge.save?.map ByteArray.size = c.cartridge.save?.map ByteArray.size :=
    (congrArg Console.Sizes.save (@Console.sizes_apply c₀ (.write (.word 0xA0000010 0x11223344)))).symm
  exact ⟨ofJson_toJson.1 _ ⟨hcpu, .string _, hrdp, by decide, by decide⟩,
    ofJson_toJson.2 c c₀ ((Console.Reachable.plugged ..).apply _) (.plugged ..) hsave _ _ _ _ _
      ⟨hcpu, .null, hrdp, by decide, by decide⟩⟩

end SaveState

end ConsoleBridge
