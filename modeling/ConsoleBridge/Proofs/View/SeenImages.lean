import ConsoleBridge.Proofs.View.Refresher
import ConsoleBridge.Proofs.View.Tiers

/-!
# The images that readers see

A copy whose reads found the process gone is not put in place of another: the read that finds it gone lets go of
the handle, nobody connects it again, and the connection is checked when the copy is whole. A copy that has passed
the check may still be put in place when the process is gone. A read is made from the one image that it took.
-/
namespace ConsoleBridge.Refresher

open Handle Snapshot
open Bytes (byte zeros)

/-- The bytes that stand for the answer to the read of a chunk: those it brought, or zeros for a fault. -/
inductive Fills (fault : AccessError → Prop) : Except AccessError ByteArray → ByteArray → Prop
  | brought (bytes) : Fills fault (.ok bytes) bytes
  | zeroed {e} (he : fault e) : Fills fault (.error e) (zeros chunkSize)

/-- The image is made up of `count` chunks, each from its own read. -/
structure Captures (fault : AccessError → Prop) (base count : Nat)
    (reads : List (Nat × Except AccessError ByteArray)) (image : ByteArray) : Prop where
  size_eq : image.size = chunkSize * count
  length_eq : reads.length = count
  chunks : ∀ k address answer, reads[k]? = some (address, answer) →
    address = base + chunkSize * k ∧
      Fills fault answer (image.extract (chunkSize * k) (chunkSize * k + chunkSize))

def Unmapped (e : AccessError) : Prop := ∃ address length, e = .unmapped address length

/-- One of the reads found the process gone. -/
def Lost (reads : List (Nat × Except AccessError ByteArray)) : Prop :=
  ∃ address, (address, .error .disconnected) ∈ reads

/-- The read began with the image that was in place, and has gathered the pieces it has done with. -/
structure Reads {σ : Type} (t : List (Event σ)) (i : Nat) (r : Reading) : Prop where
  begun : ∃ early between, t = early ++ .opened i r.address r.length :: between ∧
    (∀ e ∈ between, e.reader? ≠ some i) ∧ (shown early).getLast? = some r.image
  gathered : r.bytes ++ RamView.pick r.image r.left = RamView.pick r.image (View.spans r.address r.length)

/-- The state of a system after the events of a run. While a copy is made, a read that found the process gone has
left its mark on the handle, which is what the check of the connection looks at. -/
structure Tracks {σ : Type} (base : Nat) (t : List (Event σ)) (s : System σ) : Prop where
  copying : ∀ {first copied k}, s.phase = .copying first copied k →
    Captures (fun _ => True) base k (captured t) copied ∧ (Lost (captured t) → s.handle.connected = false)
  checked : ∀ {copied}, s.phase = .checked copied → Captures Unmapped base chunkCount (captured t) copied
  first : ∀ {copied k}, s.phase = .copying true copied k → shown t = []
  image : s.image = (shown t).getLast?
  sizes : ∀ image ∈ shown t, image.size = Bus.rdramSize
  readers : ∀ {i r}, s.readers i = some r → Reads t i r

/-- Where an image that readers find comes from: it is the first copy, or a later one made of what was brought and
of zeros for what is not mapped. -/
inductive Origin {σ : Type} (base : Nat) (t : List (Event σ)) (image : ByteArray) : Prop
  | first {before behind} (begun : t = before ++ .placed image :: behind) (alone : shown before = [])
      (captures : Captures (fun _ => True) base chunkCount (captured before) image)
  | later {before behind} (begun : t = before ++ .swapped image :: behind)
      (captures : Captures Unmapped base chunkCount (captured before) image)

/-- What becomes of the image when the process is gone: it stays, or the copy that was already checked comes in its
place and stays. -/
inductive Settled {σ : Type} (s : System σ) (swapped : List ByteArray) (s' : System σ) : Prop
  | kept (none : swapped = []) (image : s'.image = s.image)
      (checked : ∀ {copied}, s'.phase = .checked copied → s.phase = .checked copied)
  | replaced {copied} (checked : s.phase = .checked copied) (one : swapped = [copied])
      (image : s'.image = some copied) (spent : ∀ {copied'}, s'.phase ≠ .checked copied')

/-- What readers see of a run, and of every way on from it. -/
structure Seen {σ : Type} [ProcessMemory σ] (base : Nat) (t : List (Event σ)) (s : System σ) : Prop where
  found : s.image = (shown t).getLast?
  origin : ∀ image ∈ shown t, image.size = Bus.rdramSize ∧ Origin base t image
  clean : ∀ {before image behind}, t = before ++ .swapped image :: behind →
    Captures Unmapped base chunkCount (captured before) image ∧ ¬ Lost (captured before)
  settles : s.handle.connected = false → ∀ {image}, s.image = some image → ∀ {t' s'}, Run base s t' s' →
    s'.handle.connected = false ∧ Settled s (swaps t') s'
  answered : ∀ {before i address length bytes behind}, t = before ++ .answered i address length bytes :: behind →
    ∃ early between image, before = early ++ .opened i address length :: between ∧
      (∀ e ∈ between, e.reader? ≠ some i) ∧ (shown early).getLast? = some image ∧
      bytes = around (byte image) (View.offsetOf address) length

section Captures

variable {fault : AccessError → Prop} {base k : Nat} {reads : List (Nat × Except AccessError ByteArray)}
variable {image bytes : ByteArray} {answer : Except AccessError ByteArray}

theorem Fills.unmapped (hf : Fills (fun _ => True) answer bytes) (hne : answer ≠ .error .disconnected) :
    Fills Unmapped answer bytes := by
  cases hf with
  | brought => exact .brought bytes
  | @zeroed e =>
    cases e with
    | unmapped a n => exact .zeroed ⟨a, n, rfl⟩
    | disconnected => exact absurd rfl hne

private theorem Fills.ne_disconnected (hf : Fills Unmapped answer bytes) : answer ≠ .error .disconnected := by
  rintro rfl
  cases hf with
  | zeroed he =>
    obtain ⟨a, n, he⟩ := he
    cases he

theorem captures_empty (fault : AccessError → Prop) (base : Nat) :
    Captures fault base 0 [] ByteArray.empty := ⟨rfl, rfl, nofun⟩

private theorem extract_front {stop : Nat} (start : Nat) (hs : stop ≤ image.size) :
    (image ++ bytes).extract start stop = image.extract start stop := by
  have hnone : bytes.extract (start - image.size) (stop - image.size) = ByteArray.empty := by
    rw [Nat.sub_eq_zero_of_le hs, ByteArray.extract_eq_empty_iff]
    omega
  rw [ByteArray.extract_append, hnone, ByteArray.append_empty]

theorem Captures.snoc (hc : Captures fault base k reads image) (hs : bytes.size = chunkSize)
    (hf : Fills fault answer bytes) :
    Captures fault base (k + 1) (reads ++ [(base + chunkSize * k, answer)]) (image ++ bytes) where
  size_eq := by rw [ByteArray.size_append, hc.size_eq, hs, Nat.mul_succ]
  length_eq := by rw [List.length_append, hc.length_eq, List.length_singleton]
  chunks j address answer' hj := by
    by_cases hlt : j < k
    · rw [List.getElem?_append_left (by rwa [hc.length_eq])] at hj
      obtain ⟨haddress, hfills⟩ := hc.chunks j address answer' hj
      have hroom := Nat.mul_le_mul_left chunkSize (Nat.succ_le_of_lt hlt)
      rw [Nat.mul_succ] at hroom
      rw [extract_front _ (by rw [hc.size_eq]; exact hroom)]
      exact ⟨haddress, hfills⟩
    · rw [List.getElem?_append_right (by rw [hc.length_eq]; omega), hc.length_eq] at hj
      have hjk : j - k = 0 := Nat.lt_one_iff.mp (List.getElem?_eq_some_iff.mp hj).1
      obtain rfl : j = k := by omega
      rw [Nat.sub_self] at hj
      cases hj
      rw [← hc.size_eq, ByteArray.extract_append_eq_right rfl (congrArg _ hs.symm)]
      exact ⟨rfl, hf⟩

/-- Where no read found the process gone, what was not brought is not mapped. -/
theorem Captures.unmapped (hc : Captures (fun _ => True) base k reads image) (hn : ¬ Lost reads) :
    Captures Unmapped base k reads image where
  size_eq := hc.size_eq
  length_eq := hc.length_eq
  chunks j address answer hj := by
    obtain ⟨haddress, hfills⟩ := hc.chunks j address answer hj
    refine ⟨haddress, hfills.unmapped ?_⟩
    rintro rfl
    exact hn ⟨address, List.mem_of_getElem? hj⟩

private theorem Captures.not_lost (hc : Captures Unmapped base k reads image) : ¬ Lost reads := by
  rintro ⟨address, hmem⟩
  obtain ⟨j, hj⟩ := List.mem_iff_getElem?.mp hmem
  exact (hc.chunks j address _ hj).2.ne_disconnected rfl

end Captures

variable {σ : Type} [ProcessMemory σ] {base : Nat} {s s' s'' : System σ} {t t' : List (Event σ)} {e : Event σ}
variable {h : Handle σ} {address : Nat}

private theorem fills_copyChunk (h : Handle σ) (address : Nat) :
    Fills (fun _ => True) (h.read address chunkSize).1 (copyChunk h address).1 := by
  rw [copyChunk]
  rcases h.read address chunkSize with ⟨e | bytes, h'⟩
  · exact .zeroed trivial
  · exact .brought bytes

theorem snd_copyChunk (h : Handle σ) (address : Nat) :
    (copyChunk h address).2 = (h.read address chunkSize).2 := by
  rw [copyChunk]
  rcases h.read address chunkSize with ⟨e | bytes, h'⟩
  · rfl
  · rfl

/-- The read that finds the process gone lets go of the handle. -/
theorem disconnected_of_lost (hl : (h.read address chunkSize).1 = .error .disconnected) :
    (copyChunk h address).2.connected = false := by
  rw [snd_copyChunk]
  cases hc : h.connected with
  | true => exact (gone_of_read hc (Prod.ext hl rfl)).connected
  | false => rwa [read_of_disconnected hc]

omit [ProcessMemory σ] in
theorem Captures.size_image {fault : AccessError → Prop} {reads : List (Nat × Except AccessError ByteArray)}
    {image : ByteArray} (hc : Captures fault base chunkCount reads image) : image.size = Bus.rdramSize :=
  hc.size_eq

omit [ProcessMemory σ] in
theorem Reads.concat {i : Nat} {r : Reading} (hr : Reads t i r) (he : e.reader? ≠ some i) :
    Reads (t ++ [e]) i r where
  begun := by
    obtain ⟨early, between, rfl, hbetween, hshown⟩ := hr.begun
    refine ⟨early, between ++ [e], by simp, fun e' he' => ?_, hshown⟩
    rcases List.mem_append.mp he' with he' | he'
    · exact hbetween e' he'
    · rwa [List.mem_singleton.mp he']
  gathered := hr.gathered

/-- Nobody connects the handle again. -/
theorem Step.disconnected (hstep : Step base s e s') (hc : s.handle.connected = false) :
    s'.handle.connected = false := by
  cases hstep with
  | chunk phase more =>
    dsimp only
    rw [snd_copyChunk, read_of_disconnected hc]
    exact hc
  | ask r => exact perform_of_disconnected hc r
  | _ => exact hc

namespace Tracks

omit [ProcessMemory σ] in
theorem launch (h : Handle σ) (base : Nat) : Tracks base [] (.launch h) where
  copying hphase := by
    cases hphase
    exact ⟨captures_empty _ base, fun ⟨_, hmem⟩ => nomatch hmem⟩
  checked := nofun
  first _ := rfl
  image := rfl
  sizes := nofun
  readers := nofun

omit [ProcessMemory σ] in
/-- A step that puts no image in place. -/
theorem quiet (ht : Tracks base t s) (hshown : e.image? = none) (himage : s'.image = s.image)
    (hcopying : ∀ {first copied k}, s'.phase = .copying first copied k →
      Captures (fun _ => True) base k (captured (t ++ [e])) copied ∧
        (Lost (captured (t ++ [e])) → s'.handle.connected = false))
    (hchecked : ∀ {copied}, s'.phase = .checked copied →
      Captures Unmapped base chunkCount (captured (t ++ [e])) copied)
    (hfirst : ∀ {copied k}, s'.phase = .copying true copied k → shown t = [])
    (hreaders : ∀ {i r}, s'.readers i = some r → Reads (t ++ [e]) i r) : Tracks base (t ++ [e]) s' := by
  have hsame : shown (t ++ [e]) = shown t := by
    rw [shown_concat, hshown]
    exact List.append_nil _
  refine ⟨hcopying, hchecked, ?_, ?_, ?_, hreaders⟩
  · rw [hsame]
    exact hfirst
  · rw [hsame, himage]
    exact ht.image
  · rw [hsame]
    exact ht.sizes

omit [ProcessMemory σ] in
/-- A step that leaves the refresher and the image as they are. -/
theorem aside (ht : Tracks base t s) (hphase : s'.phase = s.phase) (himage : s'.image = s.image)
    (hcapture : e.capture (captured t) = captured t) (hshown : e.image? = none)
    (hlost : s.handle.connected = false → s'.handle.connected = false)
    (hreaders : ∀ {i r}, s'.readers i = some r → Reads (t ++ [e]) i r) : Tracks base (t ++ [e]) s' := by
  refine ht.quiet hshown himage ?_ ?_ ?_ hreaders
  · rw [captured_concat, hcapture, hphase]
    exact fun hcopying => ⟨(ht.copying hcopying).1, fun hl => hlost ((ht.copying hcopying).2 hl)⟩
  · rw [captured_concat, hcapture, hphase]
    exact ht.checked
  · rw [hphase]
    exact ht.first

omit [ProcessMemory σ] in
/-- A step that puts an image in place. -/
theorem shows (ht : Tracks base t s) {image : ByteArray} (hsize : image.size = Bus.rdramSize)
    (himage : e.image? = some image) (hreader : e.reader? = none) :
    Tracks base (t ++ [e]) { s with image := some image, phase := .idle } := by
  have hshown : shown (t ++ [e]) = shown t ++ [image] := by
    rw [shown_concat, himage]
    rfl
  refine ⟨nofun, nofun, nofun, ?_, ?_, fun hr => (ht.readers hr).concat (by simp [hreader])⟩
  · rw [hshown, List.getLast?_concat]
  · rw [hshown]
    intro image' hmem
    rcases List.mem_append.mp hmem with hmem | hmem
    · exact ht.sizes image' hmem
    · rwa [List.mem_singleton.mp hmem]

omit [ProcessMemory σ] in
/-- A step of one reader. -/
theorem reader (ht : Tracks base t s) {i : Nat} {r : Option Reading} (hshown : e.image? = none)
    (hcapture : e.capture (captured t) = captured t) (hothers : ∀ j ≠ i, e.reader? ≠ some j)
    (hr : ∀ q, r = some q → Reads (t ++ [e]) i q) : Tracks base (t ++ [e]) (s.setReader i r) := by
  refine ht.aside rfl rfl hcapture hshown id fun {j q} hq => ?_
  rw [readers_setReader] at hq
  split at hq
  · rename_i hj
    rw [hj]
    exact hr q hq
  · rename_i hj
    exact (ht.readers hq).concat (hothers j hj)

/-- What a step preserves. -/
theorem step (ht : Tracks base t s) (hstep : Step base s e s') : Tracks base (t ++ [e]) s' := by
  cases hstep with
  | @chunk first copied k phase more =>
    obtain ⟨hcaptures, hlost⟩ := ht.copying phase
    refine ht.quiet rfl rfl (fun hphase => ?_) nofun (fun hphase => ?_) fun hr => (ht.readers hr).concat nofun
    · cases hphase
      rw [captured_concat]
      refine ⟨hcaptures.snoc (size_copyChunk _ _) (fills_copyChunk _ _), fun ⟨address, hmem⟩ => ?_⟩
      rcases List.mem_append.mp hmem with hmem | hmem
      · -- The process was gone before this chunk.
        exact (Step.chunk phase more).disconnected (hlost ⟨address, hmem⟩)
      · exact disconnected_of_lost (congrArg Prod.snd (List.mem_singleton.mp hmem)).symm
    · cases hphase
      exact ht.first phase
  | place phase => exact ht.shows (ht.copying phase).1.size_image rfl rfl
  | verify phase =>
    obtain ⟨hcaptures, hlost⟩ := ht.copying phase
    cases hc : s.handle.connected with
    | true =>
      refine ht.quiet rfl rfl nofun (fun hphase => ?_) nofun fun hr => (ht.readers hr).concat nofun
      cases hphase
      rw [captured_concat]
      exact hcaptures.unmapped fun hl => Bool.false_ne_true ((hlost hl).symm.trans hc)
    | false => exact ht.quiet rfl rfl nofun nofun nofun fun hr => (ht.readers hr).concat nofun
  | swap phase => exact ht.shows (ht.checked phase).size_image rfl rfl
  | test phase =>
    cases s.stopped with
    | true => exact ht.quiet rfl rfl nofun nofun nofun fun hr => (ht.readers hr).concat nofun
    | false => exact ht.quiet rfl rfl nofun nofun nofun fun hr => (ht.readers hr).concat nofun
  | wake phase =>
    cases hc : s.handle.connected with
    | true =>
      refine ht.quiet rfl rfl (fun hphase => ?_) nofun nofun fun hr => (ht.readers hr).concat nofun
      cases hphase
      rw [captured_concat]
      exact ⟨captures_empty _ base, fun ⟨_, hmem⟩ => nomatch hmem⟩
    | false => exact ht.quiet rfl rfl nofun nofun nofun fun hr => (ht.readers hr).concat nofun
  | ask r =>
    refine ht.aside rfl rfl rfl rfl (fun hc => perform_of_disconnected hc r) fun hr => ?_
    exact (ht.readers hr).concat nofun
  | stop => exact ht.aside rfl rfl rfl rfl id fun hr => (ht.readers hr).concat nofun
  | @«open» i address length image free present =>
    refine ht.reader rfl rfl (fun j hj hi => hj (Option.some.inj hi).symm) ?_
    rintro _ ⟨rfl⟩
    exact ⟨⟨t, [], rfl, nofun, ht.image.symm.trans present⟩, ByteArray.empty_append⟩
  | @piece i r q rest busy left =>
    refine ht.reader rfl rfl (fun _ _ => nofun) ?_
    rintro _ ⟨rfl⟩
    have hr : Reads (t ++ [.piece i]) i r := (ht.readers busy).concat nofun
    refine ⟨hr.begun, ?_⟩
    rw [← hr.gathered, left, RamView.pick_cons, ByteArray.append_assoc]
  | @answer i r busy left =>
    exact ht.reader rfl rfl (fun j hj hi => hj (Option.some.inj hi).symm) nofun

end Tracks

theorem Run.tracks (hrun : Run base (.launch h) t s) : Tracks base t s := by
  induction hrun with
  | refl => exact .launch h base
  | snoc _ step ih => exact ih.step step

theorem Run.disconnected (hrun : Run base s t s') (hc : s.handle.connected = false) :
    s'.handle.connected = false := by
  induction hrun with
  | refl => exact hc
  | snoc _ step ih => exact step.disconnected ih

/-! ### Without the process -/

omit [ProcessMemory σ] in
/-- A step that leaves the image in place, and checks no copy. -/
theorem Settled.concat (hs : Settled s (swaps t) s') (hswap : e.swap? = none) (himage : s''.image = s'.image)
    (hphase : ∀ {copied}, s''.phase = .checked copied → s'.phase = .checked copied) :
    Settled s (swaps (t ++ [e])) s'' := by
  have hswaps : swaps (t ++ [e]) = swaps t := by
    rw [swaps_concat, hswap]
    exact List.append_nil _
  rw [hswaps]
  cases hs with
  | kept none image checked => exact .kept none (himage.trans image) fun hcopied => checked (hphase hcopied)
  | replaced checked one image spent =>
    exact .replaced checked one (himage.trans image) fun hcopied => spent (hphase hcopied)

theorem Settled.step (hs : Settled s (swaps t) s') (hc : s'.handle.connected = false)
    (hfirst : ∀ {copied k}, s'.phase ≠ .copying true copied k) (hstep : Step base s' e s'') :
    Settled s (swaps (t ++ [e])) s'' := by
  cases hstep with
  | chunk phase more => exact hs.concat rfl rfl nofun
  | place phase => exact absurd phase hfirst -- There is an image already.
  | verify phase =>
    rw [hc]
    exact hs.concat rfl rfl nofun
  | @swap copied phase =>
    rw [swaps_concat]
    cases hs with
    | kept none image checked =>
      rw [none]
      exact .replaced (checked phase) rfl rfl nofun
    | replaced checked one image spent => exact absurd phase spent
  | test phase =>
    cases s'.stopped with
    | true => exact hs.concat rfl rfl nofun
    | false => exact hs.concat rfl rfl nofun
  | wake phase =>
    rw [hc]
    exact hs.concat rfl rfl nofun
  | ask r => exact hs.concat rfl rfl id
  | stop => exact hs.concat rfl rfl id
  | «open» free present => exact hs.concat rfl rfl id
  | piece busy left => exact hs.concat rfl rfl id
  | answer busy left => exact hs.concat rfl rfl id

omit [ProcessMemory σ] in
private theorem Tracks.not_first (ht : Tracks base t s) (himage : s.image ≠ none) {copied : ByteArray} {k : Nat} :
    s.phase ≠ .copying true copied k := by
  intro hphase
  rw [ht.image, ht.first hphase] at himage
  exact himage rfl

omit [ProcessMemory σ] in
private theorem Settled.image_ne_none (hs : Settled s (swaps t) s') (himage : s.image ≠ none) : s'.image ≠ none := by
  cases hs with
  | kept none image checked => rwa [image]
  | replaced checked one image spent =>
    rw [image]
    exact Option.some_ne_none _

private theorem Run.settled (hrun : Run base (.launch h) t s) (hc : s.handle.connected = false)
    (himage : s.image ≠ none) (hrun' : Run base s t' s') : Settled s (swaps t') s' := by
  induction hrun' with
  | refl => exact .kept rfl rfl id
  | snoc run step ih =>
    exact ih.step (run.disconnected hc) ((hrun.trans run).tracks.not_first (ih.image_ne_none himage)) step

/-! ### Whole images -/

theorem Run.origin (hrun : Run base (.launch h) t s) {image : ByteArray} (hmem : image ∈ shown t) :
    Origin base t image := by
  obtain ⟨e, he, himage⟩ := List.mem_filterMap.mp hmem
  obtain ⟨before, behind, rfl⟩ := List.append_of_mem he
  obtain ⟨s₁, s₂, hrun₁, hstep, -⟩ := hrun.split
  cases hstep with
  | place phase =>
    cases himage
    exact .first rfl (hrun₁.tracks.first phase) (hrun₁.tracks.copying phase).1
  | swap phase =>
    cases himage
    exact .later rfl (hrun₁.tracks.checked phase)
  | _ => cases himage

/-- Readers find whole images: the first copy, and later ones in which zeros stand for what is not mapped alone.
When the process is gone the image changes once at the most, and each read is made from one image. -/
theorem Run.whole (hrun : Run base (.launch h) t s) : Seen base t s where
  found := hrun.tracks.image
  origin image hmem := ⟨hrun.tracks.sizes image hmem, hrun.origin hmem⟩
  clean {before image behind} ht := by
    subst ht
    obtain ⟨s₁, s₂, hrun₁, hstep, -⟩ := hrun.split
    cases hstep with
    | swap phase =>
      have hcaptures := hrun₁.tracks.checked phase
      exact ⟨hcaptures, hcaptures.not_lost⟩
  settles hc image himage t' s' hrun' :=
    ⟨hrun'.disconnected hc, hrun.settled hc (himage ▸ Option.some_ne_none image) hrun'⟩
  answered {before i address length bytes behind} ht := by
    subst ht
    obtain ⟨s₁, s₂, hrun₁, hstep, -⟩ := hrun.split
    cases hstep with
    | @answer _ r busy left =>
      obtain ⟨⟨early, between, rfl, hbetween, hshown⟩, hgathered⟩ := hrun₁.tracks.readers busy
      refine ⟨early, between, r.image, rfl, hbetween, hshown, ?_⟩
      have hsize : r.image.size = Bus.rdramSize := by
        refine hrun₁.tracks.sizes r.image ?_
        rw [shown, List.filterMap_append]
        exact List.mem_append_left _ (List.mem_of_getLast? hshown)
      rw [left] at hgathered
      rw [← RamView.pick_spans hsize, ← hgathered]
      exact ByteArray.append_empty.symm

/-- A process that holds still is copied a second time, and the copy passes the check. -/
theorem run_checked {memory : Nat → UInt8} {readable : Nat → Nat → Prop} {stays : σ → Prop}
    (hs : Still memory readable stays) (hh : Steady stays h) (base : Nat) :
    ∃ t h' image copied, Run base (.launch h) t ⟨h', some image, .checked copied, false, fun _ => none⟩ ∧
      Shows memory readable base Bus.rdramSize copied := by
  obtain ⟨image, h₁, hcopy₁, hsteady₁, -⟩ := shows_copy hs hh base
  obtain ⟨copied, h₂, hcopy₂, hsteady₂, hshows⟩ := shows_copy hs hsteady₁ base
  have hstart := run_start h base
  rw [start_eq, hcopy₁] at hstart
  have hawake := (hstart.snoc (.test rfl)).snoc (.wake rfl)
  dsimp only at hawake
  rw [hsteady₁.connected] at hawake
  have hcopied := hawake.trans (run_copy rfl)
  dsimp only at hcopied
  rw [hcopy₂] at hcopied
  have hchecked := hcopied.snoc (.verify rfl)
  dsimp only at hchecked
  rw [hsteady₂.connected] at hchecked
  exact ⟨_, h₂, image, copied, hchecked, hshows⟩

/-- The process with half of main memory, which is let go of when the second copy is checked: that copy alone can
still come in place of the first. -/
theorem whole_halfMapped :
    ∃ (t : List (Event ImageProcess)) (s s' : System ImageProcess) (copied : ByteArray),
      Run 0x50000000 (.launch halfMapped) t s ∧ s.handle.connected = false ∧
        Run 0x50000000 s [.swapped copied] s' ∧ byte copied 5 = 6 ∧ byte copied 0x400000 = 0 ∧
        Captures Unmapped 0x50000000 chunkCount (captured t) copied ∧
        ∀ t' s', Run 0x50000000 s t' s' → swaps t' = [] ∨ swaps t' = [copied] := by
  obtain ⟨t, h', image, copied, hchecked, hshows⟩ := run_checked (h := halfMapped)
    ((lowerHalf 0x50000000).still rfl) ⟨rfl, rfl⟩ 0x50000000
  have hrun := hchecked.snoc (.ask .disconnect)
  have hswap : Run 0x50000000 ⟨h'.disconnect, some image, .checked copied, false, fun _ => none⟩
      [.swapped copied] _ := (Step.swap rfl).run
  refine ⟨_, _, _, copied, hrun, rfl, hswap, ?_, ?_, ?_, fun t' s' hrun' => ?_⟩
  · rw [hshows.shown 5 (by decide) (chunkReadable_lowerHalf.mpr (by decide)), memory_lowerHalf (by decide)]
    rfl
  · exact hshows.hidden 0x400000 (by decide) fun hchunk =>
      absurd (chunkReadable_lowerHalf.mp hchunk) (Nat.lt_irrefl _)
  · exact ((hrun.trans hswap).whole.clean rfl).1
  · cases (hrun.whole.settles rfl rfl hrun').2 with
    | kept none image checked => exact .inl none
    | replaced checked one image spent =>
      cases checked
      exact .inr one

end ConsoleBridge.Refresher
