import ConsoleBridge.Proofs.Bytes.Storage

/-!
# Latches

A latch keeps some bits of the last word that was written to it. Patching it lane by lane then comes to
the same as writing the word at once, in whatever order the lanes are written.
-/
namespace ConsoleBridge.Bytes

variable {σ τ : Type} {write : σ → UInt32 → σ} {read : σ → UInt32} {s : σ} {mask v : UInt32}

/-- Only the last word written to `s` counts, only its bits under the mask matter, and these can be read
back. -/
structure Latches (write : σ → UInt32 → σ) (read : σ → UInt32) (s : σ) (mask : UInt32) : Prop where
  last : ∀ x y, write (write s x) y = write s y
  masked : ∀ x, write s (x &&& mask) = write s x
  holds : ∀ x, read (write s x) &&& mask = x &&& mask

/-- Replace some bytes of the word that is read and write it back. -/
def rewrite (write : σ → UInt32 → σ) (read : σ → UInt32) (s : σ) (p : Fin 4 → Option UInt8) : σ :=
  write s (patch (read s) p)

def andThen (p q : Fin 4 → Option UInt8) (k : Fin 4) : Option UInt8 := (q k).or (p k)

/-- A latch inside a larger state. -/
theorem Latches.lift (get : τ → σ) (set : τ → σ → τ) {t : τ} (hl : Latches write read (get t) mask)
    (hget : ∀ s, get (set t s) = s) (hset : ∀ s s', set (set t s) s' = set t s') :
    Latches (fun t x => set t (write (get t) x)) (fun t => read (get t)) t mask where
  last x y := by rw [hget, hset, hl.last]
  masked x := by rw [hl.masked]
  holds x := by
    rw [hget]
    exact hl.holds x

/-- A register that keeps the whole word. -/
theorem latches_of_read (hlast : ∀ x y, write (write s x) y = write s y) (hread : ∀ x, read (write s x) = x) :
    Latches write read s 0xFFFFFFFF where
  last := hlast
  masked x := by rw [show (0xFFFFFFFF : UInt32) = -1 from rfl, UInt32.and_neg_one]
  holds x := by rw [hread]

/-- A register that keeps nothing of the word. -/
theorem latches_of_const (hconst : ∀ x y, write s x = write s y)
    (hlast : ∀ x, write (write s x) x = write s x) : Latches write read s 0 where
  last x y := by rw [hconst x y, hlast]
  masked x := hconst _ _
  holds x := by rw [UInt32.and_zero, UInt32.and_zero]

/-- A register that is not changed by writing. -/
theorem latches_of_inert (hs : ∀ x, write s x = s) : Latches write read s 0 :=
  latches_of_const (fun x y => by rw [hs x, hs y]) fun x => by rw [hs x, hs x]

/-- A word of a byte memory is a latch, and one that is not wholly there keeps nothing. -/
theorem latches_storage (b : ByteArray) (o : Nat) :
    ∃ mask, Latches (fun b x => storeWord b o x) (fun b => loadWord b o) b mask := by
  by_cases ho : o + 4 ≤ b.size
  · exact ⟨_, latches_of_read (fun x y => storeWord_storeWord) fun x => loadWord_storeWord ho⟩
  · exact ⟨_, latches_of_inert fun x => storeWord_of_short ho⟩

private theorem patch_and_mask {w : UInt32} {p q : Fin 4 → Option UInt8} {u : UInt32}
    (hw : w &&& mask = patch u p &&& mask) : patch w q &&& mask = patch u (andThen p q) &&& mask := by
  apply byteOf_ext
  intro k
  have hk := congrArg (byteOf · k) hw
  simp only [byteOf_and, byteOf_patch] at hk ⊢
  rw [andThen]
  cases q k with
  | none => exact hk
  | some b => rfl

/-- Two rewrites of a latch come to one. -/
theorem Latches.rewrite_rewrite (hl : Latches write read s mask) (p q : Fin 4 → Option UInt8) :
    rewrite write read (rewrite write read s p) q = rewrite write read s (andThen p q) := by
  -- The second patch is laid over what is read back, which is known under the mask only.
  rw [rewrite, rewrite, rewrite, hl.last, ← hl.masked, patch_and_mask (hl.holds _), hl.masked]

private theorem Latches.foldl_rewrite (hl : Latches write read s mask) (p : Fin 4 → Option UInt8)
    (ps : List (Fin 4 → Option UInt8)) :
    ps.foldl (rewrite write read) (rewrite write read s p) = rewrite write read s (ps.foldl andThen p) := by
  induction ps generalizing p with
  | nil => rfl
  | cons q ps ih => rw [List.foldl_cons, List.foldl_cons, hl.rewrite_rewrite, ih]

/-- What is replaced are bytes of `v`. -/
def PartOf (v : UInt32) (p : Fin 4 → Option UInt8) : Prop := ∀ k b, p k = some b → b = byteOf v k

theorem PartOf.andThen {p q : Fin 4 → Option UInt8} (hp : PartOf v p) (hq : PartOf v q) :
    PartOf v (andThen p q) := by
  intro k b hb
  rw [Bytes.andThen, Option.or_eq_some_iff] at hb
  rcases hb with hb | ⟨-, hb⟩
  · exact hq k b hb
  · exact hp k b hb

/-- Patches with bytes of `v` that together cover a lane leave its byte there. -/
theorem foldl_andThen (ps : List (Fin 4 → Option UInt8)) (p : Fin 4 → Option UInt8) (hp : PartOf v p)
    (hps : ∀ q ∈ ps, PartOf v q) (k : Fin 4) (hk : ∃ q ∈ p :: ps, q k ≠ none) :
    ps.foldl andThen p k = some (byteOf v k) := by
  induction ps generalizing p with
  | nil =>
    obtain ⟨q, hq, hne⟩ := hk
    rw [List.mem_singleton] at hq
    subst hq
    obtain ⟨b, hb⟩ := Option.ne_none_iff_exists'.mp hne
    rw [List.foldl_nil, hb, hp k b hb]
  | cons q ps ih =>
    apply ih
    · exact hp.andThen (hps q (List.mem_cons_self ..))
    · exact fun r hr => hps r (List.mem_cons_of_mem _ hr)
    · obtain ⟨r, hr, hne⟩ := hk
      rw [List.mem_cons, List.mem_cons] at hr
      rcases hr with rfl | rfl | hr
      · exact ⟨_, List.mem_cons_self .., fun h => hne (Option.or_eq_none_iff.mp h).2⟩
      · exact ⟨_, List.mem_cons_self .., fun h => hne (Option.or_eq_none_iff.mp h).1⟩
      · exact ⟨r, List.mem_cons_of_mem _ hr, hne⟩

/-- Rewriting a latch with all the bytes of a word, part by part, comes to writing the word. -/
theorem Latches.foldl_rewrite_eq (hl : Latches write read s mask) {ps : List (Fin 4 → Option UInt8)}
    (hps : ∀ q ∈ ps, PartOf v q) (hcover : ∀ k, ∃ q ∈ ps, q k ≠ none) :
    ps.foldl (rewrite write read) s = write s v := by
  cases ps with
  | nil =>
    obtain ⟨q, hq, -⟩ := hcover 0
    cases hq
  | cons p ps =>
    have hpatch : patch (read s) (ps.foldl andThen p) = v := by
      apply byteOf_ext
      intro k
      rw [byteOf_patch, foldl_andThen ps p (hps p (List.mem_cons_self ..))
        (fun q hq => hps q (List.mem_cons_of_mem _ hq)) k (hcover k)]
      rfl
    rw [List.foldl_cons, hl.foldl_rewrite, rewrite, hpatch]

end ConsoleBridge.Bytes
