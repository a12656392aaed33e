import DisplayList.Proofs.Pixels

namespace DisplayList

namespace Layout

variable {l : Layout} {maxWidth padding w h n : Nat}

theorem reach_seek (l : Layout) (maxWidth padding w : Nat) : (l.seek maxWidth padding w).reach = l.reach := by
  rw [seek]
  split
  · rename_i hfull
    have hbegun : padding < l.x := by
      rw [isFull, Bool.and_eq_true, decide_eq_true_eq] at hfull
      exact hfull.1
    simp only [wrap, reach]
    omega
  · rfl

theorem reach_add_le_iff (l : Layout) :
    (l.add padding w h).reach ≤ n ↔ l.reach ≤ n ∧ l.x + w + 2 * padding ≤ n := by
  simp only [add, reach]
  omega

theorem Padded.x_seek (hl : l.Padded padding) (maxWidth w : Nat) :
    (l.seek maxWidth padding w).x = padding ∨
      padding < (l.seek maxWidth padding w).x ∧ (l.seek maxWidth padding w).x + w ≤ maxWidth := by
  have hleft := hl.left
  rw [Layout.seek]
  split
  · exact .inl rfl
  · rename_i hroom
    rw [isFull, Bool.and_eq_true, decide_eq_true_eq, decide_eq_true_eq] at hroom
    omega

end Layout

section Placing

variable {maxWidth padding n : Nat} {l : Layout} {items : List AtlasItem} {p : Placement Arg}

theorem reach_placeAll_le_iff (maxWidth padding : Nat) (l : Layout) (items : List AtlasItem) :
    (placeAll maxWidth padding l items).2.reach ≤ n ↔
      l.reach ≤ n ∧ ∀ p ∈ (placeAll maxWidth padding l items).1, p.x + p.w + 2 * padding ≤ n := by
  induction items generalizing l with
  | nil => simp [placeAll]
  | cons item items ih =>
    rw [placeAll, ih, Layout.reach_add_le_iff, Layout.reach_seek, List.forall_mem_cons, and_assoc]

theorem x_of_mem_placeAll (hl : l.Padded padding) (h : p ∈ (placeAll maxWidth padding l items).1) :
    p.x = padding ∨ padding < p.x ∧ p.x + p.w ≤ maxWidth := by
  induction items generalizing l with
  | nil => cases h
  | cons item items ih =>
    have hseek := hl.seek maxWidth item.image.width
    rw [placeAll, List.mem_cons] at h
    obtain rfl | h := h
    · exact hl.x_seek maxWidth item.image.width
    · exact ih hseek.add h

theorem exists_item_of_mem_placeAll (h : p ∈ (placeAll maxWidth padding l items).1) :
    ∃ item ∈ items, item.image.width = p.w := by
  have hmem := List.mem_map_of_mem (f := fun p ↦ (p.transform, p.w, p.h)) h
  rw [placeAll_eq, List.mem_map] at hmem
  obtain ⟨item, hitem, heq⟩ := hmem
  exact ⟨item, hitem, congrArg (·.2.1) heq⟩

end Placing

namespace Atlas

variable {items : List AtlasItem} {maxWidth padding n : Nat} {a : Atlas}

theorem pack_eq_ok (h : pack items maxWidth padding = .ok a) :
    a.placements = (placeAll maxWidth padding (.start padding) items).1 ∧
      a.image.width = (placeAll maxWidth padding (.start padding) items).2.width padding := by
  obtain ⟨canvas, -, hend⟩ := bind_eq_ok h
  cases hend
  exact ⟨rfl, rfl⟩

theorem width_le_iff (h : pack items maxWidth padding = .ok a) :
    a.image.width ≤ n ↔ ∀ p ∈ a.placements, p.x + p.w + padding ≤ n := by
  obtain ⟨hplaces, hwidth⟩ := pack_eq_ok h
  have hstart : (Layout.start padding).reach ≤ n + padding := by simp [Layout.start, Layout.reach]
  have hreach := reach_placeAll_le_iff (n := n + padding) maxWidth padding (.start padding) items
  rw [hwidth, hplaces, Layout.width, Nat.sub_le_iff_le_add, ← Layout.reach, hreach]
  constructor
  · rintro ⟨-, hright⟩ p hp
    have := hright p hp
    omega
  · intro hright
    refine ⟨hstart, ?_⟩
    intro p hp
    have := hright p hp
    omega

/-- The image is not the first of its row and ends within the greatest width, but the border to its right does not. -/
def Overhangs (maxWidth padding : Nat) (p : Placement Arg) : Prop :=
  padding < p.x ∧ p.x + p.w ≤ maxWidth ∧ maxWidth < p.x + p.w + padding

/-- If each image has room in a row of its own, an atlas is wider than its rows may be by one border at most, and just
if an image overhangs. -/
theorem width_le_iff_not_overhangs (h : ∀ item ∈ items, item.image.isPackable)
    (hroom : ∀ item ∈ items, item.image.width + 2 * padding ≤ maxWidth) :
    ∃ a, pack items maxWidth padding = .ok a ∧ a.image.width ≤ maxWidth + padding ∧
      (a.image.width ≤ maxWidth ↔ ∀ p ∈ a.placements, ¬ Overhangs maxWidth padding p) := by
  obtain ⟨a, ha⟩ := pack_ok items h maxWidth padding
  have hplace : ∀ p ∈ a.placements, p.w + 2 * padding ≤ maxWidth ∧
      (p.x = padding ∨ padding < p.x ∧ p.x + p.w ≤ maxWidth) := by
    intro p hp
    rw [(pack_eq_ok ha).1] at hp
    obtain ⟨item, hitem, hw⟩ := exists_item_of_mem_placeAll hp
    exact ⟨hw ▸ hroom item hitem, x_of_mem_placeAll (Layout.padded_start padding) hp⟩
  refine ⟨a, ha, ?_, ?_⟩
  · rw [width_le_iff ha]
    intro p hp
    have := hplace p hp
    omega
  · rw [width_le_iff ha]
    refine forall₂_congr fun p hp ↦ ?_
    have := hplace p hp
    rw [Overhangs]
    omega

def dot : AtlasItem := ⟨[], ⟨1, 1, .rgba, ⟨#[0, 0, 0, 255]⟩, false⟩⟩

theorem width_le_iff_not_overhangs_dots :
    (∀ item ∈ [dot, dot, dot], item.image.isPackable) ∧ (∀ item ∈ [dot, dot, dot], item.image.width + 2 * 1 ≤ 7) ∧
      ∃ a, pack [dot, dot, dot] 7 1 = .ok a ∧ a.image.width ≤ 7 + 1 ∧
        (a.image.width ≤ 7 ↔ ∀ p ∈ a.placements, ¬ Overhangs 7 1 p) :=
  ⟨by decide, by decide, width_le_iff_not_overhangs (by decide) (by decide)⟩

/-- Two pixels with borders need six columns, and share a row of five. -/
theorem wider_than_its_rows :
    ¬ ∀ (items : List AtlasItem) (maxWidth padding : Nat), 0 < maxWidth → (∀ item ∈ items, item.image.isPackable) →
      (∀ item ∈ items, item.image.width + 2 * padding ≤ maxWidth) →
      ∀ a, pack items maxWidth padding = .ok a → a.image.width ≤ maxWidth := by
  intro hall
  obtain ⟨a, ha⟩ := pack_ok [dot, dot] (by decide) 5 1
  have hwidth : a.image.width = 6 := (pack_eq_ok ha).2
  have hle := hall [dot, dot] 5 1 (by decide) (by decide) (by decide) a ha
  omega

end Atlas

end DisplayList
