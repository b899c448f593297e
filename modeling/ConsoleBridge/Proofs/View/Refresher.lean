import Mathlib.Data.List.Induction
import ConsoleBridge.Proofs.Discovery.Requests
import ConsoleBridge.Proofs.View.Spans

/-!
# The refresher of a snapshot, step by step

One thread copies main memory over and over and puts each whole copy in place. Meanwhile the process changes or
exits, others use the handle or let the process go, and readers take the image and read from it piece by piece.
Each of them may make the next step. Undisturbed, the refresher makes the snapshots that `Snapshot.start` and
`Snapshot.refresh` make.
-/
namespace ConsoleBridge.Refresher

open Handle Snapshot

def chunkCount : Nat := Bus.rdramSize / chunkSize

inductive Phase
  /-- So many chunks are copied; the first copy is made before there is an image. -/
  | copying (first : Bool) (copied : ByteArray) (count : Nat)
  /-- The copy is whole, and the process was there when that was checked. -/
  | checked (copied : ByteArray)
  | idle
  | asleep
  | over

/-- A read that is under way: the image it is made from, the pieces to come, and what has been read. -/
structure Reading where
  address : UInt32
  length : Nat
  image : ByteArray
  left : List View.Span
  bytes : ByteArray

/-- The handle, the image that readers find, the refresher, whether it is to stop, and the readers. -/
structure System (σ : Type) where
  handle : Handle σ
  image : Option ByteArray
  phase : Phase
  stopped : Bool
  readers : Nat → Option Reading

inductive Event (σ : Type)
  | chunk (address : Nat) (answer : Except AccessError ByteArray)
  | placed (image : ByteArray)
  | verified
  | swapped (image : ByteArray)
  | tested
  | woke
  | asked (r : Request σ)
  | stopped
  | opened (reader : Nat) (address : UInt32) (length : Nat)
  | piece (reader : Nat)
  | answered (reader : Nat) (address : UInt32) (length : Nat) (bytes : ByteArray)

namespace Event

variable {σ : Type}

def image? : Event σ → Option ByteArray
  | placed image => some image
  | swapped image => some image
  | _ => none

def swap? : Event σ → Option ByteArray
  | swapped image => some image
  | _ => none

def reader? : Event σ → Option Nat
  | opened reader _ _ => some reader
  | answered reader _ _ _ => some reader
  | _ => none

/-- The reads of the copy that is being made, or was made last. -/
def capture (reads : List (Nat × Except AccessError ByteArray)) :
    Event σ → List (Nat × Except AccessError ByteArray)
  | woke => []
  | chunk address answer => reads ++ [(address, answer)]
  | _ => reads

end Event

section Traces

variable {σ : Type}

def shown (t : List (Event σ)) : List ByteArray := t.filterMap Event.image?

def swaps (t : List (Event σ)) : List ByteArray := t.filterMap Event.swap?

def captured (t : List (Event σ)) : List (Nat × Except AccessError ByteArray) := t.foldl Event.capture []

theorem shown_concat (t : List (Event σ)) (e : Event σ) : shown (t ++ [e]) = shown t ++ e.image?.toList := by
  rw [shown, List.filterMap_append]
  cases e <;> rfl

theorem swaps_concat (t : List (Event σ)) (e : Event σ) : swaps (t ++ [e]) = swaps t ++ e.swap?.toList := by
  rw [swaps, List.filterMap_append]
  cases e <;> rfl

theorem captured_concat (t : List (Event σ)) (e : Event σ) : captured (t ++ [e]) = e.capture (captured t) :=
  List.foldl_append

end Traces

variable {σ : Type}

def System.launch (h : Handle σ) : System σ := ⟨h, none, .copying true ByteArray.empty 0, false, fun _ => none⟩

def System.setReader (s : System σ) (i : Nat) (r : Option Reading) : System σ :=
  { s with readers := fun j => if j = i then r else s.readers j }

section Readers

variable {s : System σ} {i j : Nat} {r q : Option Reading}

theorem readers_setReader : (s.setReader i r).readers j = if j = i then r else s.readers j := rfl

theorem setReader_setReader : (s.setReader i r).setReader i q = s.setReader i q := by
  have hreaders : ((s.setReader i r).setReader i q).readers = (s.setReader i q).readers := by
    funext j
    rw [readers_setReader, readers_setReader, readers_setReader]
    split
    · rfl
    · rfl
  exact congrArg (fun readers => { s with readers := readers }) hreaders

theorem setReader_same (hr : s.readers i = r) : s.setReader i r = s := by
  have hreaders : (s.setReader i r).readers = s.readers := by
    funext j
    rw [readers_setReader]
    split
    · rename_i hj
      rw [hj, hr]
    · rfl
  exact congrArg (fun readers => { s with readers := readers }) hreaders

end Readers

variable [ProcessMemory σ]

/-- A step of the refresher, of someone else who uses the handle, of the process, or of a reader. -/
inductive Step (base : Nat) : System σ → Event σ → System σ → Prop
  | chunk {s first copied k} (phase : s.phase = .copying first copied k) (more : k < chunkCount) :
      Step base s (.chunk (base + chunkSize * k) (s.handle.read (base + chunkSize * k) chunkSize).1)
        { s with
          handle := (copyChunk s.handle (base + chunkSize * k)).2
          phase := .copying first (copied ++ (copyChunk s.handle (base + chunkSize * k)).1) (k + 1) }
  | place {s copied} (phase : s.phase = .copying true copied chunkCount) :
      Step base s (.placed copied) { s with image := some copied, phase := .idle }
  -- The connection is looked at when the copy is whole, and not again before the copy is put in place.
  | verify {s copied} (phase : s.phase = .copying false copied chunkCount) :
      Step base s .verified { s with phase := if s.handle.connected then .checked copied else .over }
  | swap {s copied} (phase : s.phase = .checked copied) :
      Step base s (.swapped copied) { s with image := some copied, phase := .idle }
  | test {s} (phase : s.phase = .idle) :
      Step base s .tested { s with phase := if s.stopped then .over else .asleep }
  | wake {s} (phase : s.phase = .asleep) :
      Step base s .woke
        { s with phase := if s.handle.connected then .copying false ByteArray.empty 0 else .over }
  | ask {s} (r : Request σ) : Step base s (.asked r) { s with handle := s.handle.perform r }
  | stop {s} : Step base s .stopped { s with stopped := true }
  | open {s i address length image} (free : s.readers i = none) (present : s.image = some image) :
      Step base s (.opened i address length)
        (s.setReader i (some ⟨address, length, image, View.spans address length, ByteArray.empty⟩))
  | piece {s i r q rest} (busy : s.readers i = some r) (left : r.left = q :: rest) :
      Step base s (.piece i)
        (s.setReader i (some { r with
          left := rest
          bytes := r.bytes ++ r.image.extract q.offset (q.offset + q.length) }))
  | answer {s i r} (busy : s.readers i = some r) (left : r.left = []) :
      Step base s (.answered i r.address r.length r.bytes) (s.setReader i none)

inductive Run (base : Nat) (s : System σ) : List (Event σ) → System σ → Prop
  | refl : Run base s [] s
  | snoc {t s' e s''} (run : Run base s t s') (step : Step base s' e s'') : Run base s (t ++ [e]) s''

variable {base : Nat} {s s' s'' : System σ} {t t' : List (Event σ)} {e : Event σ}

theorem Run.trans (hrun : Run base s t s') (hrun' : Run base s' t' s'') : Run base s (t ++ t') s'' := by
  induction hrun' with
  | refl =>
    rw [List.append_nil]
    exact hrun
  | snoc _ step ih =>
    rw [← List.append_assoc]
    exact ih.snoc step

theorem Step.run (hstep : Step base s e s') : Run base s [e] s' := Run.refl.snoc hstep

theorem Run.of_concat (hrun : Run base s (t ++ [e]) s'') :
    ∃ s', Run base s t s' ∧ Step base s' e s'' := by
  generalize ht : t ++ [e] = u at hrun
  cases hrun with
  | refl => simp at ht
  | snoc run step =>
    obtain ⟨rfl, he⟩ := List.append_inj' ht rfl
    cases he
    exact ⟨_, run, step⟩

/-- A run passes the step of each of its events. -/
theorem Run.split {behind : List (Event σ)} (hrun : Run base s (t ++ e :: behind) s'') :
    ∃ s₁ s₂, Run base s t s₁ ∧ Step base s₁ e s₂ ∧ Run base s₂ behind s'' := by
  induction behind using List.reverseRecOn generalizing s'' with
  | nil =>
    obtain ⟨s₁, hrun₁, hstep⟩ := hrun.of_concat
    exact ⟨s₁, s'', hrun₁, hstep, .refl⟩
  | append_singleton behind e' ih =>
    rw [← List.cons_append, ← List.append_assoc] at hrun
    obtain ⟨s₃, hrun₃, hstep₃⟩ := hrun.of_concat
    obtain ⟨s₁, s₂, hrun₁, hstep, hrun₂⟩ := ih hrun₃
    exact ⟨s₁, s₂, hrun₁, hstep, hrun₂.snoc hstep₃⟩

/-! ### The undisturbed refresher -/

def chunkEvents (h : Handle σ) (address : Nat) : (count : Nat) → List (Event σ)
  | 0 => []
  | count + 1 =>
    .chunk address (h.read address chunkSize).1 ::
      chunkEvents (copyChunk h address).2 (address + chunkSize) count

private theorem run_copyChunks {first : Bool} {copied : ByteArray} {k n : Nat}
    (hphase : s.phase = .copying first copied k) (hn : k + n ≤ chunkCount) :
    Run base s (chunkEvents s.handle (base + chunkSize * k) n)
      { s with
        handle := (copyChunks s.handle (base + chunkSize * k) copied n).2
        phase := .copying first (copyChunks s.handle (base + chunkSize * k) copied n).1 (k + n) } := by
  induction n generalizing s copied k with
  | zero =>
    have hsame : { s with phase := .copying first copied k } = s := by
      obtain ⟨handle, image, phase, stopped, readers⟩ := s
      cases hphase
      rfl
    rw [copyChunks, chunkEvents, Nat.add_zero, hsame]
    exact .refl
  | succ n ih =>
    have hstep : Step base s _ _ := .chunk hphase (by omega)
    have hrest := ih (s := { s with
      handle := (copyChunk s.handle (base + chunkSize * k)).2
      phase := .copying first (copied ++ (copyChunk s.handle (base + chunkSize * k)).1) (k + 1) }) rfl
      (by omega)
    rw [Nat.mul_succ, ← Nat.add_assoc, Nat.add_right_comm k 1 n] at hrest
    exact hstep.run.trans hrest

theorem copy_eq (h : Handle σ) (base : Nat) : copy h base = copyChunks h base ByteArray.empty chunkCount := by
  have hempty : ByteArray.emptyWithCapacity Bus.rdramSize = ByteArray.empty := rfl
  rw [copy, hempty, chunkCount]

theorem start_eq (h : Handle σ) (base : Nat) :
    start h base = (⟨base, (copy h base).1⟩, (copy h base).2) := by
  rw [start]

theorem run_copy {first : Bool} (hphase : s.phase = .copying first ByteArray.empty 0) :
    Run base s (chunkEvents s.handle base chunkCount)
      { s with handle := (copy s.handle base).2, phase := .copying first (copy s.handle base).1 chunkCount } := by
  have hrun : Run base s _ _ := run_copyChunks (n := chunkCount) hphase (Nat.le_of_eq (Nat.zero_add _))
  rw [Nat.mul_zero, Nat.add_zero, Nat.zero_add, ← copy_eq] at hrun
  exact hrun

/-- Undisturbed, the first snapshot is that of `Snapshot.start`. -/
theorem run_start (h : Handle σ) (base : Nat) :
    Run base (.launch h) (chunkEvents h base chunkCount ++ [.placed (start h base).1.image])
      { System.launch h with
        handle := (start h base).2
        image := some (start h base).1.image
        phase := .idle } := by
  have hrun : Run base (.launch h) (chunkEvents h base chunkCount)
      { System.launch h with handle := (copy h base).2, phase := .copying true (copy h base).1 chunkCount } :=
    run_copy rfl
  rw [start_eq]
  -- The copy is a name from here on: evaluating it would read all of main memory.
  generalize copy h base = p at hrun ⊢
  exact hrun.snoc (.place rfl)

private theorem refresh_eq {h : Handle σ} (hc : h.connected = true) (base : Nat) (image : ByteArray) :
    refresh ⟨base, image⟩ h =
      (⟨base, if (copy h base).2.connected then (copy h base).1 else image⟩, (copy h base).2) := by
  rw [refresh, if_pos hc]
  dsimp only
  generalize copy h base = p
  split
  · rfl
  · rfl

private theorem run_refresh_of_connected {h : Handle σ} {image : ByteArray} {stopped : Bool}
    {readers : Nat → Option Reading} (hc : h.connected = true) :
    ∃ t, Run base ⟨h, some image, .asleep, stopped, readers⟩ t
      ⟨(copy h base).2, some (if (copy h base).2.connected then (copy h base).1 else image),
        if (copy h base).2.connected then .idle else .over, stopped, readers⟩ := by
  have hwake : Run base ⟨h, some image, .asleep, stopped, readers⟩ [.woke]
      ⟨h, some image, if h.connected then .copying false ByteArray.empty 0 else .over, stopped, readers⟩ :=
    (Step.wake rfl).run
  have hcopy : Run base ⟨h, some image, .copying false ByteArray.empty 0, stopped, readers⟩
      (chunkEvents h base chunkCount)
      ⟨(copy h base).2, some image, .copying false (copy h base).1 chunkCount, stopped, readers⟩ := run_copy rfl
  rw [if_pos hc] at hwake
  have hrun := hwake.trans hcopy
  generalize copy h base = p at hrun ⊢
  have hverify := hrun.snoc (.verify rfl)
  dsimp only at hverify
  cases hp : p.2.connected with
  | false =>
    rw [hp, if_neg Bool.false_ne_true] at hverify
    rw [if_neg Bool.false_ne_true, if_neg Bool.false_ne_true]
    exact ⟨_, hverify⟩
  | true =>
    rw [hp, if_pos rfl] at hverify
    rw [if_pos rfl, if_pos rfl]
    exact ⟨_, hverify.snoc (.swap rfl)⟩

/-- Undisturbed, the snapshot after an interval is that of `Snapshot.refresh`. -/
theorem run_refresh {image : ByteArray} (hphase : s.phase = .asleep) (himage : s.image = some image) :
    ∃ t, Run base s t
      { s with
        handle := (refresh ⟨base, image⟩ s.handle).2
        image := some (refresh ⟨base, image⟩ s.handle).1.image
        phase := if (refresh ⟨base, image⟩ s.handle).2.connected then .idle else .over } := by
  have hwake : Run base s _ _ := (Step.wake hphase).run
  obtain ⟨h, _, _, stopped, readers⟩ := s
  cases hphase
  cases himage
  cases hc : h.connected with
  | false =>
    have hsame : refresh ⟨base, image⟩ h = (⟨base, image⟩, h) := by rw [refresh, if_neg (by simp [hc])]
    dsimp only at hwake ⊢
    rw [hsame]
    dsimp only
    rw [hc, if_neg Bool.false_ne_true] at hwake ⊢
    exact ⟨_, hwake⟩
  | true =>
    obtain ⟨t, hrun⟩ : ∃ t, Run base ⟨h, some image, .asleep, stopped, readers⟩ t _ :=
      run_refresh_of_connected hc
    dsimp only
    rw [refresh_eq hc]
    generalize copy h base = p at hrun ⊢
    exact ⟨t, hrun⟩

private theorem run_pieces {i : Nat} {r : Reading} (hr : s.readers i = some r) :
    Run base s (List.replicate r.left.length (.piece i))
      (s.setReader i (some { r with left := [], bytes := r.bytes ++ RamView.pick r.image r.left })) := by
  obtain ⟨address, length, image, left, bytes⟩ := r
  induction left generalizing s bytes with
  | nil =>
    rw [show bytes ++ RamView.pick image [] = bytes from ByteArray.append_empty, setReader_same hr]
    exact .refl
  | cons q rest ih =>
    have hstep : Run base s _ _ := (Step.piece hr rfl).run
    have hrest := ih (s := s.setReader i (some ⟨address, length, image, rest,
      bytes ++ image.extract q.offset (q.offset + q.length)⟩)) _ (if_pos rfl)
    rw [setReader_setReader] at hrest
    rw [RamView.pick_cons, ← ByteArray.append_assoc]
    exact hstep.trans hrest

/-- Undisturbed, a read answers as one from the snapshot. -/
theorem run_read {i : Nat} {image : ByteArray} (hfree : s.readers i = none) (himage : s.image = some image)
    (address : UInt32) (length : Nat) :
    Run base s
      (.opened i address length :: List.replicate (View.spans address length).length (.piece i) ++
        [.answered i address length
          ((RamView.snapshot ⟨base, image⟩).readBytes s.handle address length).1.bytes]) s := by
  have hopen : Run base s [.opened i address length] _ := (Step.open hfree himage).run
  have hpieces : Run base
      (s.setReader i (some ⟨address, length, image, View.spans address length, ByteArray.empty⟩)) _ _ :=
    run_pieces (if_pos rfl)
  have hrun := (hopen.trans hpieces).snoc (.answer (if_pos rfl) rfl)
  rw [setReader_setReader, setReader_setReader, setReader_same hfree] at hrun
  dsimp only at hrun
  rw [ByteArray.empty_append] at hrun
  exact hrun

end ConsoleBridge.Refresher
