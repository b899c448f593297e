import ConsoleBridge.Process.Handle

/-!
# How a handle comes through a search

A call on a connected handle either leaves the connection and what is remembered as they were, or finds
the process gone and forgets everything. `Ends` carries these two endings from single calls to
whole searches.
-/
namespace ConsoleBridge.Handle

variable {σ α ε : Type}

structure Gone (h : Handle σ) : Prop where
  connected : h.connected = false
  ram : h.ram = none
  input : h.input = none

structure Keeps (h h' : Handle σ) : Prop where
  connected : h'.connected = true
  ram : h'.ram = h.ram
  input : h'.input = h.input

/-- A handle that has lost its process remembers nothing. -/
def Coherent (h : Handle σ) : Prop := h.connected = false → h.ram = none ∧ h.input = none

/-- The endings of a search that begins with the handle `h`: it finds something or fails, and keeps the
connection, or its answer is the error `lost` and the process is gone. -/
inductive Ends (lost : ε) (h : Handle σ) : Except ε α × Handle σ → Prop
  | found {v h'} (keeps : Keeps h h') : Ends lost h (.ok v, h')
  | failed {e h'} (keeps : Keeps h h') (ne : e ≠ lost) : Ends lost h (.error e, h')
  | gone {h'} (gone : Gone h') : Ends lost h (.error lost, h')

theorem Keeps.refl {h : Handle σ} (hc : h.connected = true) : Keeps h h := ⟨hc, rfl, rfl⟩

theorem Keeps.trans {h h' h'' : Handle σ} (hk : Keeps h h') (hk' : Keeps h' h'') : Keeps h h'' :=
  ⟨hk'.connected, hk'.ram.trans hk.ram, hk'.input.trans hk.input⟩

theorem Ends.of_keeps {lost : ε} {h h' : Handle σ} {p : Except ε α × Handle σ} (hk : Keeps h h')
    (he : Ends lost h' p) : Ends lost h p := by
  cases he with
  | found keeps => exact .found (hk.trans keeps)
  | failed keeps ne => exact .failed (hk.trans keeps) ne
  | gone gone => exact .gone gone

theorem gone_disconnect (h : Handle σ) : Gone h.disconnect := ⟨rfl, rfl, rfl⟩

theorem Gone.coherent {h : Handle σ} (hg : Gone h) : Coherent h := fun _ => ⟨hg.ram, hg.input⟩

theorem Coherent.gone {h : Handle σ} (hh : Coherent h) (hc : h.connected = false) : Gone h :=
  ⟨hc, (hh hc).1, (hh hc).2⟩

theorem coherent_of_connected {h : Handle σ} (hc : h.connected = true) : Coherent h := by
  intro hd
  rw [hc] at hd
  cases hd

theorem Ends.coherent {lost : ε} {h : Handle σ} {p : Except ε α × Handle σ} (he : Ends lost h p) :
    Coherent p.2 := by
  cases he with
  | found keeps => exact coherent_of_connected keeps.connected
  | failed keeps ne => exact coherent_of_connected keeps.connected
  | gone gone => exact gone.coherent

/-- A search that ends connected has remembered and forgotten nothing. -/
theorem Ends.keeps {lost : ε} {h : Handle σ} {p : Except ε α × Handle σ} (he : Ends lost h p)
    (hc : p.2.connected = true) : Keeps h p.2 := by
  cases he with
  | found keeps => exact keeps
  | failed keeps ne => exact keeps
  | gone gone => exact absurd (gone.connected.symm.trans hc) Bool.false_ne_true

theorem call_of_disconnected {h : Handle σ} (hc : h.connected = false)
    (f : σ → Except AccessError α × σ) : h.call f = (.error .disconnected, h) := by
  obtain ⟨pid, target, connected, ram, input⟩ := h
  cases hc
  rfl

theorem call_of_lost {h : Handle σ} (hc : h.connected = true) {f : σ → Except AccessError α × σ} {t : σ}
    (hf : f h.target = (.error .disconnected, t)) :
    h.call f = (.error .disconnected, disconnect { h with target := t }) := by
  obtain ⟨pid, target, connected, ram, input⟩ := h
  cases hc
  simp only at hf
  simp only [call, hf]

theorem call_of_answer {h : Handle σ} (hc : h.connected = true) {f : σ → Except AccessError α × σ}
    {r : Except AccessError α} {t : σ} (hf : f h.target = (r, t)) (hr : r ≠ .error .disconnected) :
    h.call f = (r, { h with target := t }) := by
  obtain ⟨pid, target, connected, ram, input⟩ := h
  cases hc
  simp only at hf
  simp only [call, hf]

/-- A call disconnects a handle exactly when the process answers that it is gone. -/
theorem call_ends {h : Handle σ} (hc : h.connected = true) (f : σ → Except AccessError α × σ) :
    Ends .disconnected h (h.call f) := by
  rcases hf : f h.target with ⟨e | v, t⟩
  · cases e with
    | disconnected =>
      rw [call_of_lost hc hf]
      exact .gone (gone_disconnect _)
    | unmapped =>
      rw [call_of_answer hc hf (by simp)]
      exact .failed ⟨hc, rfl, rfl⟩ (by simp)
  · rw [call_of_answer hc hf (by simp)]
    exact .found ⟨hc, rfl, rfl⟩

/-- What a connected handle answers to a call is what the process answers. -/
theorem fst_call {h : Handle σ} (hc : h.connected = true) (f : σ → Except AccessError α × σ) :
    (h.call f).1 = (f h.target).1 := by
  rcases hf : f h.target with ⟨e | v, t⟩
  · cases e with
    | disconnected => rw [call_of_lost hc hf]
    | unmapped => rw [call_of_answer hc hf (by simp)]
  · rw [call_of_answer hc hf (by simp)]

/-- A call on a connected handle changes the process as the process says. -/
theorem target_call {h : Handle σ} (hc : h.connected = true) (f : σ → Except AccessError α × σ) :
    (h.call f).2.target = (f h.target).2 := by
  rcases hf : f h.target with ⟨e | v, t⟩
  · cases e with
    | disconnected =>
      rw [call_of_lost hc hf]
      rfl
    | unmapped => rw [call_of_answer hc hf (by simp)]
  · rw [call_of_answer hc hf (by simp)]

variable [ProcessMemory σ]

theorem read_ends {h : Handle σ} (hc : h.connected = true) (address length : Nat) :
    Ends .disconnected h (h.read address length) := call_ends hc _

theorem write_ends {h : Handle σ} (hc : h.connected = true) (address : Nat) (bytes : ByteArray) :
    Ends .disconnected h (h.write address bytes) := call_ends hc _

theorem regions_ends {h : Handle σ} (hc : h.connected = true) : Ends .disconnected h h.regions :=
  call_ends hc _

theorem fst_read {h : Handle σ} (hc : h.connected = true) (address length : Nat) :
    (h.read address length).1 = (ProcessMemory.read h.target address length).1 := fst_call hc _

theorem read_of_disconnected {h : Handle σ} (hc : h.connected = false) (address length : Nat) :
    h.read address length = (.error .disconnected, h) := call_of_disconnected hc _

theorem regions_of_disconnected {h : Handle σ} (hc : h.connected = false) :
    h.regions = (.error .disconnected, h) := call_of_disconnected hc _

/-- A read that is answered found the process. -/
theorem keeps_of_answer {h h' : Handle σ} {address length : Nat} {r : Except AccessError ByteArray}
    (hr : h.read address length = (r, h')) (hne : r ≠ .error .disconnected) : Keeps h h' := by
  cases hc : h.connected with
  | true =>
    have he := read_ends hc address length
    rw [hr] at he
    cases he with
    | found keeps => exact keeps
    | failed keeps ne => exact keeps
    | gone gone => exact absurd rfl hne
  | false =>
    rw [read_of_disconnected hc] at hr
    cases hr
    exact absurd rfl hne

theorem keeps_of_read {h h' : Handle σ} {address length : Nat} {bytes : ByteArray}
    (hr : h.read address length = (.ok bytes, h')) : Keeps h h' := keeps_of_answer hr nofun

theorem keeps_of_unmapped {h h' : Handle σ} {address length a n : Nat}
    (hr : h.read address length = (.error (.unmapped a n), h')) : Keeps h h' := keeps_of_answer hr nofun

theorem gone_of_read {h h' : Handle σ} (hc : h.connected = true) {address length : Nat}
    (hr : h.read address length = (.error .disconnected, h')) : Gone h' := by
  have he := read_ends hc address length
  rw [hr] at he
  cases he with
  | failed keeps ne => exact absurd rfl ne
  | gone gone => exact gone

/-- A search that reads on its way, and passes over what is unmapped. -/
theorem ends_of_read {h : Handle σ} (hc : h.connected = true) (address length : Nat) {lost : ε}
    {found : ByteArray → Handle σ → Except ε α × Handle σ} {skip : Handle σ → Except ε α × Handle σ}
    (hfound : ∀ bytes h', h'.connected = true → Ends lost h' (found bytes h'))
    (hskip : ∀ h', h'.connected = true → Ends lost h' (skip h')) :
    Ends lost h
      (match h.read address length with
      | (.ok bytes, h) => found bytes h
      | (.error .disconnected, h) => (.error lost, h)
      | (.error _, h) => skip h) := by
  have hr := read_ends hc address length
  generalize h.read address length = p at hr ⊢
  cases hr with
  | @found bytes h' keeps => exact (hfound bytes h' keeps.connected).of_keeps keeps
  | @failed e h' keeps ne =>
    cases e with
    | unmapped => exact (hskip h' keeps.connected).of_keeps keeps
    | disconnected => exact absurd rfl ne
  | gone gone => exact .gone gone

/-- A search through the regions of the process. -/
theorem ends_of_regions {h : Handle σ} (hc : h.connected = true) (wrap : AccessError → ε)
    (hwrap : ∀ e, wrap e = wrap .disconnected → e = .disconnected)
    {next : List Region → Handle σ → Except ε α × Handle σ}
    (hnext : ∀ regions h', h'.connected = true → Ends (wrap .disconnected) h' (next regions h')) :
    Ends (wrap .disconnected) h
      (match h.regions with
      | (.ok regions, h) => next regions h
      | (.error e, h) => (.error (wrap e), h)) := by
  have hr := regions_ends hc
  generalize h.regions = p at hr ⊢
  cases hr with
  | @found regions h' keeps => exact (hnext regions h' keeps.connected).of_keeps keeps
  | @failed e h' keeps ne => exact .failed keeps fun he => ne (hwrap e he)
  | gone gone => exact .gone gone

end ConsoleBridge.Handle
