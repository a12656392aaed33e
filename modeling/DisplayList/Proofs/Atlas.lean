import DisplayList.Atlas
import DisplayList.Proofs.Checked
import Mathlib.Tactic.Ring

namespace DisplayList

structure HasRoom (padding x y w h width height : Nat) : Prop where
  left : padding ≤ x
  top : padding ≤ y
  right : x + w + padding ≤ width
  bottom : y + h + padding ≤ height

namespace Layout

variable {l : Layout} {maxWidth padding w h : Nat}

/-- How far the rows reach to the right, with the border of the next image. -/
def reach (l : Layout) : Nat := max l.widest l.x

def bottom (l : Layout) : Nat := l.y + l.rowHeight

structure Padded (l : Layout) (padding : Nat) : Prop where
  left : padding ≤ l.x
  top : padding ≤ l.y

theorem padded_start (padding : Nat) : (start padding).Padded padding := ⟨le_rfl, le_rfl⟩

theorem Padded.seek (hl : l.Padded padding) (maxWidth w : Nat) : (l.seek maxWidth padding w).Padded padding := by
  obtain ⟨hx, hy⟩ := hl
  simp only [Layout.seek, wrap]
  split
  · exact ⟨le_rfl, by dsimp only; omega⟩
  · exact ⟨hx, hy⟩

theorem Padded.add (hl : l.Padded padding) : (l.add padding w h).Padded padding :=
  ⟨hl.left.trans (by simp only [Layout.add]; omega), hl.top⟩

theorem reach_le_seek : l.reach ≤ (l.seek maxWidth padding w).reach := by
  simp only [seek, wrap, reach]
  split
  · dsimp only; omega
  · exact le_rfl

theorem bottom_le_seek : l.bottom ≤ (l.seek maxWidth padding w).bottom := by
  simp only [seek, wrap, bottom]
  split
  · dsimp only; omega
  · exact le_rfl

theorem reach_le_add : l.reach ≤ (l.add padding w h).reach := by simp only [add, reach]; omega

theorem bottom_le_add : l.bottom ≤ (l.add padding w h).bottom := by simp only [add, bottom]; omega

theorem place_le_add (l : Layout) (padding w h : Nat) :
    l.x + w + 2 * padding ≤ (l.add padding w h).reach ∧ l.y + h ≤ (l.add padding w h).bottom := by
  simp only [add, reach, bottom]
  omega

end Layout

section Placing

variable {maxWidth padding : Nat} {l : Layout} {items : List AtlasItem}

theorem reach_le_placeAll (maxWidth padding : Nat) (l : Layout) (items : List AtlasItem) :
    l.reach ≤ (placeAll maxWidth padding l items).2.reach ∧
      l.bottom ≤ (placeAll maxWidth padding l items).2.bottom := by
  induction items generalizing l with
  | nil => exact ⟨le_rfl, le_rfl⟩
  | cons item items ih =>
    rw [placeAll]
    obtain ⟨hr, hb⟩ := ih ((l.seek maxWidth padding item.image.width).add padding item.image.width item.image.height)
    exact ⟨Layout.reach_le_seek.trans (Layout.reach_le_add.trans hr),
      Layout.bottom_le_seek.trans (Layout.bottom_le_add.trans hb)⟩

theorem hasRoom_placeAll (hl : l.Padded padding) {p : Placement Arg} {item : AtlasItem}
    (h : (p, item) ∈ (placeAll maxWidth padding l items).1.zip items) :
    HasRoom padding p.x p.y item.image.width item.image.height
      ((placeAll maxWidth padding l items).2.width padding) ((placeAll maxWidth padding l items).2.height padding) := by
  induction items generalizing l with
  | nil => simp at h
  | cons item' items ih =>
    rw [placeAll] at h ⊢
    rw [List.zip_cons_cons, List.mem_cons] at h
    have hs := hl.seek maxWidth item'.image.width
    obtain h | h := h
    · obtain ⟨rfl, rfl⟩ := Prod.mk.inj h
      obtain ⟨hx, hy⟩ := Layout.place_le_add (l.seek maxWidth padding item.image.width) padding
        item.image.width item.image.height
      obtain ⟨hr, hb⟩ := reach_le_placeAll maxWidth padding
        ((l.seek maxWidth padding item.image.width).add padding item.image.width item.image.height) items
      refine ⟨hs.left, hs.top, ?_, ?_⟩
      · have := hx.trans hr
        simp only [Layout.width, Layout.reach] at this ⊢
        omega
      · have := hy.trans hb
        simp only [Layout.height, Layout.bottom] at this ⊢
        omega
    · exact ih hs.add h

end Placing

namespace Canvas

variable {c : Canvas} {padding x y w h width height : Nat} {image : Image}

structure Measures (c : Canvas) (width height : Nat) : Prop where
  width_eq : c.width = width
  size_eq : c.data.size = width * 4 * height

theorem Measures.stride_eq (hc : c.Measures width height) : c.stride = width * 4 := by rw [stride, hc.width_eq]

theorem measures_blank (width height : Nat) : (blank width height).Measures width height :=
  ⟨rfl, size_filled 0 _⟩

theorem stretch_le {row : Nat} (offset length : Nat) (hr : row < height) (ho : offset + length ≤ width * 4) :
    row * (width * 4) + offset + length ≤ width * 4 * height := by
  calc row * (width * 4) + offset + length ≤ row * (width * 4) + width * 4 := by omega
    _ = width * 4 * (row + 1) := by ring
    _ ≤ width * 4 * height := Nat.mul_le_mul_left _ hr

theorem copy_ok {start length target : Nat} (hc : c.Measures width height)
    (hs : start + length ≤ width * 4 * height) (ht : target + length ≤ width * 4 * height) :
    ∃ c', c.copy start length target = .ok c' ∧ c'.Measures width height := by
  rw [← hc.size_eq] at hs ht
  obtain ⟨data, hd, hn⟩ := copyWithin_ok hs ht
  exact ⟨{ c with data }, by rw [copy, hd, ok_bind, pure_eq_ok], hc.width_eq, hn.trans hc.size_eq⟩

theorem putRows_ok (hc : c.Measures width height)
    (hr : HasRoom padding x y image.width image.height width height)
    (hi : image.width * 4 * image.height ≤ image.data.size) :
    ∃ c', c.putRows x y image = .ok c' ∧ c'.Measures width height := by
  rw [putRows, hc.stride_eq]
  obtain ⟨hl, ht, hr, hb⟩ := hr
  refine foldlM_ok (fun k hk c hc ↦ ?_) hc
  have hk := List.mem_range.1 hk
  have hrow : k * (image.width * 4) + image.width * 4 ≤ image.data.size :=
    (stretch_le 0 _ hk (by omega)).trans hi
  obtain ⟨row, h₁, hn⟩ := slice_ok hrow
  have hplace : (y + k) * (width * 4) + x * 4 + row.size ≤ c.data.size := by
    rw [hc.size_eq, hn]
    exact stretch_le _ _ (by omega) (by omega)
  obtain ⟨data, h₂, hs⟩ := overwrite_ok hplace
  refine ⟨{ c with data }, ?_, hc.width_eq, hs.trans hc.size_eq⟩
  rw [h₁, ok_bind, h₂, ok_bind, pure_eq_ok]

theorem extendRows_ok (hc : c.Measures width height) (hr : HasRoom padding x y w h width height) (hh : 0 < h) :
    ∃ c', c.extendRows padding x y w h = .ok c' ∧ c'.Measures width height := by
  rw [extendRows, hc.stride_eq]
  obtain ⟨hl, ht, hr, hb⟩ := hr
  dsimp only
  rw [distance_ok (by omega), ok_bind]
  refine foldlM_ok (fun d hd c hc ↦ ?_) hc
  have hd := List.mem_range.1 hd
  have hup : (d + 1) * (width * 4) ≤ y * (width * 4) + x * 4 :=
    (Nat.mul_le_mul_right _ (by omega)).trans (Nat.le_add_right _ _)
  have hlift : y * (width * 4) + x * 4 - (d + 1) * (width * 4) = (y - (d + 1)) * (width * 4) + x * 4 := by
    rw [Nat.sub_mul, Nat.sub_add_comm (Nat.mul_le_mul_right _ (by omega))]
  have hdown : (y + h - 1) * (width * 4) + x * 4 + (d + 1) * (width * 4) =
      (y + h - 1 + (d + 1)) * (width * 4) + x * 4 := by ring
  rw [distance_ok hup, ok_bind, hlift, hdown]
  have hrow (row : Nat) (h : row < height) : row * (width * 4) + x * 4 + w * 4 ≤ width * 4 * height :=
    stretch_le _ _ h (by omega)
  obtain ⟨c₁, h₁, hc₁⟩ := copy_ok hc (hrow y (by omega)) (hrow (y - (d + 1)) (by omega))
  rw [h₁, ok_bind]
  exact copy_ok hc₁ (hrow _ (by omega)) (hrow _ (by omega))

theorem extendRow_ok {left right : Nat} (hc : c.Measures width height) (hl : padding * 4 ≤ left)
    (hlr : left ≤ right) (hr : right + 4 + padding * 4 ≤ width * 4 * height) :
    ∃ c', c.extendRow padding left right = .ok c' ∧ c'.Measures width height := by
  refine foldlM_ok (fun d hd c hc ↦ ?_) hc
  have hd := List.mem_range.1 hd
  rw [distance_ok (by omega), ok_bind]
  obtain ⟨c₁, h₁, hc₁⟩ := copy_ok hc (show left + 4 ≤ _ by omega) (show left - (d + 1) * 4 + 4 ≤ _ by omega)
  rw [h₁, ok_bind]
  exact copy_ok hc₁ (by omega) (by omega)

theorem extendColumns_ok (hc : c.Measures width height) (hr : HasRoom padding x y w h width height) (hw : 0 < w) :
    ∃ c', c.extendColumns padding x y w h = .ok c' ∧ c'.Measures width height := by
  obtain ⟨hl, ht, hr, hb⟩ := hr
  rw [extendColumns, hc.stride_eq, distance_ok ht, ok_bind]
  refine foldlM_ok (fun r hr' c hc ↦ ?_) hc
  have hr' := List.mem_range.1 hr'
  have hrow : (y - padding + r) * (width * 4) + (x * 4 + w * 4) + padding * 4 ≤ width * 4 * height :=
    stretch_le _ _ (by omega) (by omega)
  dsimp only
  rw [distance_ok (by omega), ok_bind]
  exact extendRow_ok hc (by omega) (by omega) (by omega)

theorem paint_ok (hc : c.Measures width height)
    (hr : HasRoom padding x y image.width image.height width height)
    (hi : image.width * 4 * image.height ≤ image.data.size) :
    ∃ c', c.paint padding x y image = .ok c' ∧ c'.Measures width height := by
  rw [paint]
  split
  · exact ⟨c, rfl, hc⟩
  · rename_i h
    have hw : 0 < image.width := by omega
    have hh : 0 < image.height := by omega
    obtain ⟨c₁, h₁, hc₁⟩ := putRows_ok hc hr hi
    obtain ⟨c₂, h₂, hc₂⟩ := extendRows_ok hc₁ hr hh
    rw [h₁, ok_bind, h₂, ok_bind]
    exact extendColumns_ok hc₂ hr hw

end Canvas

theorem Image.le_size_of_isPackable {i : Image} (h : i.isPackable) : i.width * 4 * i.height ≤ i.data.size := by
  rw [isPackable, Bool.and_eq_true, decide_eq_true_eq, decide_eq_true_eq, expectedLength] at h
  obtain ⟨hk, hl⟩ := h
  rwa [hk] at hl

/-- All images are painted, and the canvas keeps its measures. -/
theorem Canvas.paintAll_ok (items : List AtlasItem) (h : ∀ item ∈ items, item.image.isPackable)
    (maxWidth padding : Nat) :
    let placed := placeAll maxWidth padding (.start padding) items
    ∃ c : Canvas, (placed.1.zip items).foldlM (fun c (p, item) ↦ c.paint padding p.x p.y item.image)
        (blank (placed.2.width padding) (placed.2.height padding)) = .ok c ∧
      c.Measures (placed.2.width padding) (placed.2.height padding) := by
  have hpaint : ∀ q ∈ (placeAll maxWidth padding (.start padding) items).1.zip items, ∀ c : Canvas,
      c.Measures _ _ → ∃ c', c.paint padding q.1.x q.1.y q.2.image = .ok c' ∧ c'.Measures _ _ :=
    fun q hq c hc ↦ Canvas.paint_ok hc (hasRoom_placeAll (Layout.padded_start padding) hq)
      (Image.le_size_of_isPackable (h q.2 (List.of_mem_zip hq).2))
  exact foldlM_ok hpaint (Canvas.measures_blank _ _)

theorem Atlas.pack_ok (items : List AtlasItem) (h : ∀ item ∈ items, item.image.isPackable)
    (maxWidth padding : Nat) : ∃ a, Atlas.pack items maxWidth padding = .ok a := by
  obtain ⟨c, hc, -⟩ := Canvas.paintAll_ok items h maxWidth padding
  exact ⟨_, (congrArg (· >>= _) hc).trans (ok_bind _ _)⟩

end DisplayList
