import Mathlib.Data.List.Induction
import ConsoleBridge.Process.Scripted
import ConsoleBridge.Proofs.Bytes.Storage
import ConsoleBridge.Proofs.Process.Recording

/-!
# The life of a handle

A handle is connected until it is let go or a call is answered that the process is gone. Until then each request
is one call with the answer of the process; from then on each is refused without a call.
-/
namespace ConsoleBridge

open Handle

/-- A request to a handle, or something that happens to the process meanwhile. -/
inductive Access (σ : Type)
  | read (address length : Nat)
  | readInto (address : Nat) (buffer : ByteArray)
  | write (address : Nat) (bytes : ByteArray)
  | regions
  | disconnect
  | meanwhile (change : σ → σ)

namespace Access

inductive Answer
  | read (answer : Except AccessError ByteArray)
  | filled (answer : Except AccessError Unit) (buffer : ByteArray)
  | written (answer : Except AccessError Unit)
  | regions (answer : Except AccessError (List Region))
  | none

/-- The calls that a request is passed on as, and the answer that it has from theirs. -/
inductive Passed {σ : Type} : Access σ → Answer → List Call → Prop
  | read {address length answer} : Passed (.read address length) (.read answer) [.read address length answer]
  | filled {address buffer bytes} :
      Passed (.readInto address buffer) (.filled (.ok ()) bytes) [.read address buffer.size (.ok bytes)]
  | short {address buffer e left} :
      Passed (.readInto address buffer) (.filled (.error e) left) [.read address buffer.size (.error e)]
  | write {address bytes answer} :
      Passed (.write address bytes) (.written answer) [.write address bytes answer]
  | regions {answer} : Passed .regions (.regions answer) [.regions answer]
  | disconnect : Passed .disconnect .none []
  | meanwhile {change} : Passed (.meanwhile change) .none []

/-- The answer to a request that is refused since the process is gone. -/
inductive Refused {σ : Type} : Access σ → Answer → Prop
  | read {address length} : Refused (.read address length) (.read (.error .disconnected))
  | readInto {address buffer} : Refused (.readInto address buffer) (.filled (.error .disconnected) buffer)
  | write {address bytes} : Refused (.write address bytes) (.written (.error .disconnected))
  | regions : Refused .regions (.regions (.error .disconnected))
  | disconnect : Refused .disconnect .none
  | meanwhile {change} : Refused (.meanwhile change) .none

variable {σ : Type}

def elapse (a : Access σ) (target : σ) : σ :=
  match a with
  | .meanwhile change => change target
  | _ => target

def recorded : Access σ → Access (Recording σ)
  | .read address length => .read address length
  | .readInto address buffer => .readInto address buffer
  | .write address bytes => .write address bytes
  | .regions => .regions
  | .disconnect => .disconnect
  | .meanwhile change => .meanwhile fun r => { r with target := change r.target }

end Access

variable {σ : Type} [ProcessMemory σ]

namespace Handle

def access (h : Handle σ) : Access σ → Access.Answer × Handle σ
  | .read address length => (.read (h.read address length).1, (h.read address length).2)
  | .readInto address buffer =>
    (.filled (h.readInto address buffer).1.1 (h.readInto address buffer).1.2, (h.readInto address buffer).2)
  | .write address bytes => (.written (h.write address bytes).1, (h.write address bytes).2)
  | .regions => (.regions h.regions.1, h.regions.2)
  | .disconnect => (.none, h.disconnect)
  | .meanwhile change => (.none, { h with target := change h.target })

def after (h : Handle σ) (past : List (Access σ)) : Handle σ := past.foldl (fun h a => (h.access a).2) h

def observed (h : Handle σ) (past : List (Access σ)) : Handle (Recording σ) :=
  h.recorded.after (past.map Access.recorded)

/-- What the requests `past` have left of a handle, and how the next one is answered. -/
structure Lives (h : Handle σ) (past : List (Access σ)) : Prop where
  same : (h.observed past).bare = h.after past ∧
    ∀ a : Access σ, ((h.observed past).access a.recorded).1 = ((h.after past).access a).1
  connected : (h.after past).connected = true ↔
    .disconnect ∉ past ∧ ∀ c ∈ (h.observed past).calls, ¬ c.Lost
  passed : (h.after past).connected = true → ∀ a : Access σ, ∃ calls,
    a.Passed ((h.after past).access a).1 calls ∧ Adds (h.observed past) (h.observed (past ++ [a])) calls ∧
      (a ≠ .disconnect → (∀ c ∈ calls, ¬ c.Lost) →
        h.after (past ++ [a]) = { h.after past with target := (h.after (past ++ [a])).target })
  refused : (h.after past).connected = false → ∀ a : Access σ,
    a.Refused ((h.after past).access a).1 ∧ Adds (h.observed past) (h.observed (past ++ [a])) [] ∧
      h.after (past ++ [a]) = { h.after past with target := a.elapse (h.after past).target }

variable {h : Handle σ} {k : Handle (Recording σ)} {past : List (Access σ)}

theorem after_concat (h : Handle σ) (past : List (Access σ)) (a : Access σ) :
    h.after (past ++ [a]) = ((h.after past).access a).2 := by
  rw [after, List.foldl_append]
  rfl

theorem observed_concat (h : Handle σ) (past : List (Access σ)) (a : Access σ) :
    h.observed (past ++ [a]) = ((h.observed past).access a.recorded).2 := by
  rw [observed, List.map_append]
  exact after_concat ..

/-- A request is answered as if its calls were not recorded. -/
theorem unrecorded_access (k : Handle (Recording σ)) (a : Access σ) :
    unrecorded (k.access a.recorded) = k.bare.access a := by
  cases a with
  | read address length =>
    rw [access, ← unrecorded_read]
    rfl
  | readInto address buffer =>
    rw [access, ← unrecorded_readInto]
    rfl
  | write address bytes =>
    rw [access, ← unrecorded_write]
    rfl
  | regions =>
    rw [access, ← unrecorded_regions]
    rfl
  | disconnect => rfl
  | meanwhile change => rfl

theorem bare_observed (h : Handle σ) (past : List (Access σ)) : (h.observed past).bare = h.after past := by
  induction past using List.reverseRecOn with
  | nil => rfl
  | append_singleton past a ih =>
    rw [observed_concat, after_concat, ← ih, ← unrecorded_access]
    rfl

/-- How a request leaves a connected handle: without its process, or as it was. -/
inductive Leaves (k k' : Handle (Recording σ)) (a : Access σ) (calls : List Call) : Prop
  | gone (ended : a = .disconnect ∨ ∃ c ∈ calls, c.Lost) (gone : Gone k')
  | kept (ne : a ≠ .disconnect) (answered : ∀ c ∈ calls, ¬ c.Lost) (same : k' = { k with target := k'.target })

omit [ProcessMemory σ] in
/-- A call that is passed on leaves a handle by its answer. -/
theorem leaves_call {α : Type} (hc : k.connected = true) (f : σ → Except AccessError α × σ)
    {call : Except AccessError α → Call} (hlost : ∀ r, (call r).Lost ↔ r = .error .disconnected) {a : Access σ}
    (ha : a ≠ .disconnect) :
    Leaves k (k.call fun r => r.keep f call).2 a [call (k.call fun r => r.keep f call).1] := by
  rcases hr : k.target.keep f call with ⟨r, t⟩
  by_cases hgone : r = .error .disconnected
  · subst hgone
    rw [call_of_lost hc hr]
    exact .gone (.inr ⟨_, List.mem_singleton_self _, (hlost _).mpr rfl⟩) (gone_disconnect _)
  · rw [call_of_answer hc hr hgone]
    refine .kept ha (fun c hmem => ?_) rfl
    rw [List.mem_singleton.mp hmem, hlost]
    exact hgone

/-- A request to a connected handle is passed on. -/
theorem access_of_connected (hc : k.connected = true) (a : Access σ) :
    ∃ calls, a.Passed (k.access a.recorded).1 calls ∧ Adds k (k.access a.recorded).2 calls ∧
      Leaves k (k.access a.recorded).2 a calls := by
  have hread : ∀ address length {a : Access σ}, a ≠ .disconnect →
      Adds k (k.read address length).2 [.read address length (k.read address length).1] ∧
        Leaves k (k.read address length).2 a [.read address length (k.read address length).1] := by
    intro address length a ha
    exact ⟨adds_of_answer (f := (ProcessMemory.read · address length)) hc rfl,
      leaves_call hc (ProcessMemory.read · address length) (fun r => Iff.rfl) ha⟩
  cases a with
  | read address length => exact ⟨_, .read, hread address length (by simp)⟩
  | readInto address buffer =>
    have hfill := hread address buffer.size (a := .readInto address buffer) (by simp)
    change ∃ calls, Access.Passed _ (.filled (k.readInto address buffer).1.1 (k.readInto address buffer).1.2) calls ∧
      Adds k (k.readInto address buffer).2 calls ∧ Leaves k (k.readInto address buffer).2 _ calls
    rw [readInto]
    generalize k.read address buffer.size = p at hfill ⊢
    rcases p with ⟨e | bytes, k'⟩
    · exact ⟨_, .short, hfill⟩
    · exact ⟨_, .filled, hfill⟩
  | write address bytes =>
    exact ⟨_, .write, adds_of_write hc rfl,
      leaves_call hc (ProcessMemory.write · address bytes) (fun r => Iff.rfl) (by simp)⟩
  | regions =>
    exact ⟨_, .regions, adds_of_answer (f := ProcessMemory.regions) hc rfl,
      leaves_call hc ProcessMemory.regions (fun r => Iff.rfl) (by simp)⟩
  | disconnect => exact ⟨_, .disconnect, .refl k, .gone (.inl rfl) (gone_disconnect k)⟩
  | meanwhile change => exact ⟨_, .meanwhile, .refl k, .kept (by simp) (by simp) rfl⟩

/-- A request to a handle without its process is refused, and the handle stays as it is. -/
theorem access_of_gone (hg : Gone h) (a : Access σ) :
    a.Refused (h.access a).1 ∧ (h.access a).2 = { h with target := a.elapse h.target } := by
  cases a with
  | read address length =>
    rw [access, read_of_disconnected hg.connected]
    exact ⟨.read, rfl⟩
  | readInto address buffer =>
    have harrived : h.arrived address buffer.size = ByteArray.empty := by
      rw [arrived, hg.connected]
      rfl
    rw [access, readInto, read_of_disconnected hg.connected]
    dsimp only
    rw [harrived, Bytes.paste_empty]
    exact ⟨.readInto, rfl⟩
  | write address bytes =>
    rw [access, write, call_of_disconnected hg.connected]
    exact ⟨.write, rfl⟩
  | regions =>
    rw [access, regions_of_disconnected hg.connected]
    exact ⟨.regions, rfl⟩
  | disconnect =>
    obtain ⟨pid, target, connected, ram, input⟩ := h
    obtain ⟨rfl, rfl, rfl⟩ := hg
    exact ⟨.disconnect, rfl⟩
  | meanwhile change => exact ⟨.meanwhile, rfl⟩

/-- What some requests leave of a connected handle: it is connected and none of them has ended that, or it has
lost its process by one of them. -/
inductive Stage (k : Handle (Recording σ)) (past : List (Access σ)) : Prop
  | alive (connected : k.connected = true) (kept : .disconnect ∉ past ∧ ∀ c ∈ k.calls, ¬ c.Lost)
  | finished (gone : Gone k) (ended : .disconnect ∈ past ∨ ∃ c ∈ k.calls, c.Lost)

omit [ProcessMemory σ] in
private theorem Stage.connected_iff (hs : Stage k past) :
    k.connected = true ↔ .disconnect ∉ past ∧ ∀ c ∈ k.calls, ¬ c.Lost := by
  cases hs with
  | alive connected kept => exact iff_of_true connected kept
  | finished gone ended =>
    refine iff_of_false (by simp [gone.connected]) ?_
    rintro ⟨hnot, hanswered⟩
    rcases ended with hmem | ⟨c, hc, hlost⟩
    · exact hnot hmem
    · exact hanswered c hc hlost

private theorem stage_observed (hc : h.connected = true) (past : List (Access σ)) : Stage (h.observed past) past := by
  induction past using List.reverseRecOn with
  | nil => exact .alive hc ⟨List.not_mem_nil, nofun⟩
  | append_singleton past a ih =>
    rw [observed_concat]
    cases ih with
    | alive connected kept =>
      obtain ⟨calls, -, hadds, hleaves⟩ := access_of_connected connected a
      rw [Adds] at hadds
      cases hleaves with
      | gone ended gone =>
        refine .finished gone ?_
        rcases ended with rfl | ⟨c, hmem, hlost⟩
        · exact .inl (List.mem_append_right past (List.mem_singleton_self _))
        · exact .inr ⟨c, hadds ▸ List.mem_append_right _ hmem, hlost⟩
      | kept ne answered same =>
        refine .alive (by rw [same]; exact connected) ⟨?_, ?_⟩
        · rw [List.mem_append, List.mem_singleton]
          rintro (hmem | rfl)
          · exact kept.1 hmem
          · exact ne rfl
        · rw [hadds]
          intro c hmem
          rcases List.mem_append.mp hmem with hmem | hmem
          · exact kept.2 c hmem
          · exact answered c hmem
    | finished gone ended =>
      have hsame := (access_of_gone gone a.recorded).2
      have hcalls : ((h.observed past).access a.recorded).2.calls = (h.observed past).calls := by
        rw [hsame]
        cases a with
        | _ => rfl
      refine .finished (hsame ▸ ⟨gone.connected, gone.ram, gone.input⟩) ?_
      rw [hcalls]
      exact ended.imp_left (List.mem_append_left [a])

/-- A handle is connected exactly until it is let go or a call is answered that the process is gone. Until then a
request is one call with the answer of the process, and but for these two changes nothing of the handle; from then
on each is refused without a call and changes nothing. -/
theorem lives (hc : h.connected = true) (past : List (Access σ)) : Lives h past := by
  have hbare := bare_observed h past
  have hstage := stage_observed hc past
  have hconnected : (h.observed past).connected = (h.after past).connected := congrArg Handle.connected hbare
  have hanswer : ∀ a : Access σ, ((h.observed past).access a.recorded).1 = ((h.after past).access a).1 := by
    intro a
    have hsame := unrecorded_access (h.observed past) a
    rw [hbare] at hsame
    exact congrArg Prod.fst hsame
  refine ⟨⟨hbare, hanswer⟩, ?_, fun hconn a => ?_, fun hlost a => ?_⟩
  · rw [← hconnected]
    exact hstage.connected_iff
  · obtain ⟨calls, hpassed, hadds, hleaves⟩ := access_of_connected (hconnected.trans hconn) a
    rw [hanswer] at hpassed
    refine ⟨calls, hpassed, observed_concat h past a ▸ hadds, fun ne hanswered => ?_⟩
    cases hleaves with
    | gone ended gone =>
      rcases ended with rfl | ⟨c, hmem, hcall⟩
      · exact absurd rfl ne
      · exact absurd hcall (hanswered c hmem)
    | kept ne answered same =>
      rw [← bare_observed h (past ++ [a]), ← hbare, observed_concat, same]
      rfl
  · have hgone : Gone (h.observed past) := by
      cases hstage with
      | alive connected kept => exact absurd ((hconnected.symm.trans connected).symm.trans hlost) nofun
      | finished gone ended => exact gone
    have hbaregone : Gone (h.after past) := hbare ▸ ⟨hgone.connected, hgone.ram, hgone.input⟩
    obtain ⟨hrefused, hsame⟩ := access_of_gone hbaregone a
    refine ⟨hrefused, ?_, after_concat h past a ▸ hsame⟩
    rw [observed_concat, (access_of_gone hgone a.recorded).2, Adds, List.append_nil]
    cases a with
    | _ => rfl

def departing : ScriptedProcess := .new ⟨[⟨0x1000, .readOnly, none, ⟨#[1, 2, 3, 4]⟩⟩], false⟩ [⟨1, .exit⟩] []

/-- The first read misses the region, the second finds the process gone, and no call is made for the third request. -/
theorem lives_departing :
    (attach 1 departing).connected = true ∧
      Lives (attach 1 departing) [.read 0x2000 4, .readInto 0x1000 ⟨#[0, 0]⟩, .regions] ∧
      ((attach 1 departing).observed [.read 0x2000 4, .readInto 0x1000 ⟨#[0, 0]⟩, .regions]).calls.length = 2 :=
  ⟨rfl, lives rfl _, by decide +kernel⟩

end Handle

end ConsoleBridge
