import ConsoleBridge.Discovery.Capture
import ConsoleBridge.Proofs.Controller.LiveWord

/-!
# Captures and their differences

A capture has one copy for each base, in ascending order. What the comparison of two captures answers is the
address of a word that is in both and differs, and a capture does not differ from itself.
-/
namespace ConsoleBridge

open Signature (Lowest)

def ShapeContract.ChangedAt (c : ShapeContract) (before after : ByteArray) (offset : Nat) : Prop :=
  ∃ old new, StateBytes.at? before offset = some old ∧ StateBytes.at? after offset = some new ∧
    old ≠ new ∧ c.admits new = true

namespace Capture

variable {contract : ShapeContract} {b k o : Nat} {bytes before after : ByteArray}
variable {l : List (Nat × ByteArray)} {p : Nat × ByteArray} {c d : Capture}

theorem mem_insertRegion (hp : p ∈ insertRegion b bytes l) : p = (b, bytes) ∨ p ∈ l := by
  induction l with
  | nil => exact .inl (List.mem_singleton.mp hp)
  | cons q rest ih =>
    rw [insertRegion] at hp
    split at hp
    · exact List.mem_cons.mp hp
    · split at hp
      · exact (List.mem_cons.mp hp).imp_right (List.mem_cons_of_mem q)
      · rcases List.mem_cons.mp hp with rfl | hp
        · exact .inr List.mem_cons_self
        · exact (ih hp).imp_right (List.mem_cons_of_mem q)

/-- The copies stand in strictly ascending order. -/
def Ordered (c : Capture) : Prop := c.regions.Pairwise fun p q => p.1 < q.1

theorem ordered_empty : Ordered empty := List.Pairwise.nil

private theorem pairwise_insertRegion (hl : l.Pairwise fun p q => p.1 < q.1) :
    (insertRegion b bytes l).Pairwise fun p q => p.1 < q.1 := by
  induction l with
  | nil => exact List.pairwise_singleton _ _
  | cons q rest ih =>
    obtain ⟨hq, hrest⟩ := List.pairwise_cons.mp hl
    rw [insertRegion]
    split
    · rename_i hlt
      refine List.pairwise_cons.mpr ⟨fun p hp => ?_, hl⟩
      rcases List.mem_cons.mp hp with rfl | hp
      · exact hlt
      · exact Nat.lt_trans hlt (hq p hp)
    · split
      · rename_i heq
        exact List.pairwise_cons.mpr ⟨fun p hp => heq ▸ hq p hp, hrest⟩
      · refine List.pairwise_cons.mpr ⟨fun p hp => ?_, ih hrest⟩
        rcases mem_insertRegion hp with rfl | hp
        · show q.1 < b
          omega
        · exact hq p hp

theorem Ordered.insert (hc : c.Ordered) : (c.insert b bytes).Ordered := pairwise_insertRegion hc

theorem mem_of_get? (hb : c.get? b = some bytes) : (b, bytes) ∈ c.regions := by
  obtain ⟨front, behind, hregions, -⟩ := List.lookup_eq_some_iff.mp hb
  rw [hregions]
  exact List.mem_append_right front List.mem_cons_self

theorem Ordered.get?_of_mem (hc : c.Ordered) (hb : (b, bytes) ∈ c.regions) : c.get? b = some bytes := by
  obtain ⟨front, behind, hregions⟩ := List.append_of_mem hb
  refine List.lookup_eq_some_iff.mpr ⟨front, behind, hregions, fun p hp => ?_⟩
  rw [Ordered, hregions] at hc
  have hlt : p.1 < b := (List.pairwise_append.mp hc).2.2 p hp _ List.mem_cons_self
  simp
  omega

theorem changedFrom_lowest (contract : ShapeContract) (before after : ByteArray) (k : Nat) :
    Lowest (fun o => 4 * k ≤ o ∧ 4 ∣ o ∧ contract.ChangedAt before after o)
      (changedFrom contract before after k) := by
  fun_induction changedFrom contract before after k with
  | case1 k hk old new hchanged =>
    refine .some ⟨Nat.le_refl _, ⟨k, rfl⟩, old, new, ?_⟩ fun o ho => ho.1
    exact ⟨StateBytes.at?_of_le hk.2, StateBytes.at?_of_le hk.1, hchanged⟩
  | case2 k hk old new hsame ih =>
    refine ih.of_iff fun o => ⟨?_, ?_⟩
    · rintro ⟨hle, ⟨j, rfl⟩, ho⟩
      have hne : j ≠ k := by
        rintro rfl
        obtain ⟨old', new', hold, hnew, hchanged⟩ := ho
        rw [StateBytes.at?_of_le hk.2, Option.some.injEq] at hold
        rw [StateBytes.at?_of_le hk.1, Option.some.injEq] at hnew
        subst hold hnew
        exact hsame hchanged
      exact ⟨by omega, ⟨j, rfl⟩, ho⟩
    · rintro ⟨hle, ho⟩
      exact ⟨by omega, ho⟩
  | case3 k hk =>
    refine .none ?_
    rintro o ⟨hle, -, old, new, hold, hnew, -⟩
    have hbefore := StateBytes.bound_of_at? hold
    have hafter := StateBytes.bound_of_at? hnew
    omega

private theorem changedFrom_self (contract : ShapeContract) (bytes : ByteArray) (k : Nat) :
    changedFrom contract bytes bytes k = none := by
  refine (changedFrom_lowest contract bytes bytes k).eq_none_iff.mpr ?_
  rintro o ⟨-, -, old, new, hold, hnew, hne, -⟩
  rw [hold, Option.some.injEq] at hnew
  exact hne hnew

/-- What the comparison comes upon is a word of one region in both captures, which the change has made
admitted. -/
theorem exists_of_firstChange {hit : Hit} (ha : firstChange c d contract = some hit) :
    ∃ b before after o, (b, before) ∈ c.regions ∧ (b, after) ∈ d.regions ∧ before.size = after.size ∧
      4 ∣ o ∧ contract.ChangedAt before after o ∧ hit = Address.plus b o := by
  obtain ⟨⟨b, after⟩, hmem, hin⟩ := List.exists_of_findSome?_eq_some ha
  rw [changedIn] at hin
  split at hin
  · rename_i before hbefore
    split at hin
    · rename_i hsize
      obtain ⟨o, ho, rfl⟩ := Option.map_eq_some_iff.mp hin
      have hleast := (changedFrom_lowest contract before after 0).eq_some_iff.mp ho
      exact ⟨b, before, after, o, mem_of_get? hbefore, hmem, hsize, hleast.1.2.1, hleast.1.2.2, rfl⟩
    · cases hin
  · cases hin

/-- Two equal captures have no difference. -/
theorem Ordered.firstChange_self (hc : c.Ordered) (contract : ShapeContract) :
    firstChange c c contract = none := by
  refine List.findSome?_eq_none_iff.mpr ?_
  rintro ⟨b, bytes⟩ hb
  rw [changedIn, hc.get?_of_mem hb]
  simp [changedFrom_self]

end Capture

end ConsoleBridge
