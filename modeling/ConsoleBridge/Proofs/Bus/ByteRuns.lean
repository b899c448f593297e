import ConsoleBridge.Proofs.Bus.BlockRead

/-!
# Runs of bytes

A run of bytes is read byte by byte, around the end of the address space and across whatever lies on the way. Its length
is only counted below 2 ^ 32: a longer run comes back short, and two runs make up one exactly if their counted lengths
do not wrap around.
-/
namespace ConsoleBridge.Console

open Bytes Bus

/-- A run of bytes is read whole: as many as are asked for, each as it is read by itself. -/
structure ReadsWhole (c : Console) (a : UInt32) (n : Nat) : Prop where
  size_eq : (c.readBytes a n).size = n
  byte_eq : ∀ i < n, byte (c.readBytes a n) i = c.read8 (a + UInt32.ofNat i)

variable {c : Console} {a : UInt32} {i m n : Nat}

theorem Reachable.size_rdram (hc : c.Reachable) : c.rdram.size = rdramSize := by
  obtain ⟨save, hsizes⟩ := hc.sizes_eq
  exact congrArg Sizes.rdram hsizes

/-- The addresses of a byte of main memory, one through each segment. -/
theorem physical_eq_iff {o : Nat} (ho : o < rdramSize) :
    physical a = o ↔ a.toNat = o ∨ a.toNat = 0x80000000 + o ∨ a.toNat = 0xA0000000 + o := by
  have ha := a.toNat_lt
  rw [rdramSize] at ho
  rw [physical]
  split
  · omega
  · omega

/-- Further on in main memory by as much as further on in the segment. -/
theorem physical_add (ha : physical a + i < rdramSize) : physical (a + UInt32.ofNat i) = physical a + i := by
  have haddress := (physical_eq_iff (Nat.lt_of_le_of_lt (Nat.le_add_right ..) ha)).mp rfl
  have hsum : (a + UInt32.ofNat i).toNat = (a.toNat + i) % 2 ^ 32 := by
    rw [UInt32.toNat_add, UInt32.toNat_ofNat', Nat.add_mod_mod]
  rw [physical_eq_iff ha, hsum]
  rw [rdramSize] at ha
  omega

theorem read32_of_main (ha : physical a < rdramSize) : c.read32 a = loadWord c.rdram (wordBase (physical a)) := by
  have hat : wordAt? a = some (.rdram, wordBase (physical a)) := by
    rw [wordAt?_eq_some_iff, wordOfAddress]
    simp only [wordBase, Backing.first, Backing.extent]
    omega
  rw [read32, hat]
  rfl

/-- A lane of a word of main memory. -/
theorem byteOf_read32 (hs : c.rdram.size = rdramSize) (ha : physical a < rdramSize) (k : Fin 4) :
    byteOf (c.read32 a) k = seen c.rdram (wordBase (physical a) + k) := by
  rw [read32_of_main ha]
  rw [rdramSize] at hs ha
  apply byteOf_loadWord
  · rw [wordBase]
    omega
  · rw [wordBase]
    omega

theorem lane_lt_rdramSize {o : Nat} (ho : o < rdramSize) : lane o < rdramSize := by
  have hlane := lane_eq o
  rw [rdramSize] at ho ⊢
  omega

theorem read8_of_main (hs : c.rdram.size = rdramSize) (ha : physical a < rdramSize) :
    c.read8 a = seen c.rdram (physical a) := by
  have haddress := (physical_eq_iff ha).mp rfl
  have hplace : wordBase (physical a) + (laneAt a).val = physical a := by
    simp only [wordBase, laneAt]
    omega
  rw [read8_eq, byteOf_read32 hs ha, hplace]

theorem size_readBytes (c : Console) (a : UInt32) (n : Nat) : (c.readBytes a n).size = n % 2 ^ 32 := by
  simp [readBytes, ByteArray.size]

theorem byte_readBytes (hi : i < n % 2 ^ 32) : byte (c.readBytes a n) i = c.read8 (a + UInt32.ofNat i) := by
  have hsize : i < (c.readBytes a n).size := by rwa [size_readBytes]
  rw [byte_of_lt hsize]
  simp [readBytes, ByteArray.getElem_eq_getElem_data]

private theorem readsWhole_iff : c.ReadsWhole a n ↔ n < 2 ^ 32 := by
  constructor
  · intro h
    have hsize := h.size_eq
    rw [size_readBytes] at hsize
    omega
  · intro hn
    have hmod : n % 2 ^ 32 = n := Nat.mod_eq_of_lt hn
    exact ⟨by rw [size_readBytes, hmod], fun i hi => byte_readBytes (by rwa [hmod])⟩

private theorem add_ofNat_behind (hi : m % 2 ^ 32 ≤ i) :
    a + UInt32.ofNat m + UInt32.ofNat (i - m % 2 ^ 32) = a + UInt32.ofNat i := by
  apply UInt32.toNat_inj.mp
  simp only [UInt32.toNat_add, UInt32.toNat_ofNat']
  omega

private theorem readBytes_add_iff :
    c.readBytes a (m + n) = c.readBytes a m ++ c.readBytes (a + UInt32.ofNat m) n ↔
      m % 2 ^ 32 + n % 2 ^ 32 < 2 ^ 32 := by
  constructor
  · intro h
    have hsize := congrArg ByteArray.size h
    rw [ByteArray.size_append, size_readBytes, size_readBytes, size_readBytes] at hsize
    omega
  · intro hfits
    have hmod : (m + n) % 2 ^ 32 = m % 2 ^ 32 + n % 2 ^ 32 := by omega
    apply ext_byte
    · rw [ByteArray.size_append, size_readBytes, size_readBytes, size_readBytes, hmod]
    · intro i hi
      rw [size_readBytes, hmod] at hi
      rw [byte_readBytes (by rwa [hmod]), byte_append, size_readBytes]
      split
      · rename_i hfront
        rw [byte_readBytes hfront]
      · rw [byte_readBytes (by omega), add_ofNat_behind (by omega)]

/-- From a state that the console can come to, a run of bytes is read whole exactly if its length is below 2 ^ 32, and
exactly the runs whose counted lengths do not wrap around are put together from two. What is read is at each place
the byte that is read there by itself, in main memory the one at the place that is flipped within its word. -/
theorem readBytes_whole_below (hc : Reachable c) (a : UInt32) :
    (∀ n, c.ReadsWhole a n ↔ n < 2 ^ 32) ∧
      (∀ m n, c.readBytes a (m + n) = c.readBytes a m ++ c.readBytes (a + UInt32.ofNat m) n ↔
        m % 2 ^ 32 + n % 2 ^ 32 < 2 ^ 32) ∧
      ∀ n, (c.readBytes a n).size = n % 2 ^ 32 ∧ ∀ i < n % 2 ^ 32,
        byte (c.readBytes a n) i = c.read8 (a + UInt32.ofNat i) ∧
          (physical a + i < rdramSize → (physical a + i) ^^^ 3 < c.rdram.size ∧
            byte (c.readBytes a n) i = byte c.rdram ((physical a + i) ^^^ 3)) := by
  refine ⟨fun n => readsWhole_iff, fun m n => readBytes_add_iff, fun n => ⟨size_readBytes c a n, fun i hi => ?_⟩⟩
  refine ⟨byte_readBytes hi, fun hmain => ⟨?_, ?_⟩⟩
  · exact Nat.lt_of_lt_of_eq (lane_lt_rdramSize hmain) hc.size_rdram.symm
  · have hphysical := physical_add hmain
    rw [byte_readBytes hi, read8_of_main hc.size_rdram (by rwa [hphysical]), hphysical]
    rfl

/-- Eight bytes across the end of main memory: the last word, then open bus. -/
theorem readBytes_edge :
    let c := (new .absent).apply (.write (.word 0x807FFFFC 0x11223344))
    Reachable c ∧ c.ReadsWhole 0x807FFFFC 8 ∧
      c.readBytes 0x807FFFFC (4 + 4) = c.readBytes 0x807FFFFC 4 ++ c.readBytes 0x80800000 4 := by
  intro c
  have hc : Reachable c := .apply .absent _
  obtain ⟨hwhole, hadd, -⟩ := readBytes_whole_below hc 0x807FFFFC
  exact ⟨hc, (hwhole 8).mpr (by decide), (hadd 4 4).mpr (by decide)⟩

/-- Nothing at all comes back of the whole address space. -/
theorem not_readsWhole_everything :
    Reachable (new .absent) ∧ (new .absent).readBytes 0 0x100000000 = .empty ∧
      ¬ (new .absent).ReadsWhole 0 0x100000000 :=
  ⟨.absent, ByteArray.ext rfl, fun h => absurd h.size_eq (by rw [size_readBytes]; decide)⟩

end ConsoleBridge.Console
