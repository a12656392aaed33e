import DisplayList.Proofs.AtlasWidth
import DisplayList.Proofs.Delivery

namespace DisplayList

namespace Layout

def wrapInWords (l : Layout) (padding : Nat) : Except Fault Layout := do
  let y ← sumIn UInt32.size l.y (← sumIn UInt32.size l.rowHeight (← productIn UInt32.size 2 padding))
  return { x := padding, y, widest := max l.widest l.x }

def seekInWords (l : Layout) (maxWidth padding width : Nat) : Except Fault Layout := do
  if padding < l.x then
    if maxWidth < (← sumIn UInt32.size l.x width) then l.wrapInWords padding else return l
  else
    return l

def addInWords (l : Layout) (padding width height : Nat) : Except Fault Layout := do
  let x ← sumIn UInt32.size l.x (← sumIn UInt32.size width (← productIn UInt32.size 2 padding))
  return { l with x, rowHeight := max l.rowHeight height }

def heightInWords (l : Layout) (padding : Nat) : Except Fault Nat := do
  sumIn UInt32.size (← sumIn UInt32.size l.y l.rowHeight) padding

end Layout

def placeAllInWords (maxWidth padding : Nat) :
    Layout → List AtlasItem → Except Fault (List (Placement Arg) × Layout)
  | l, [] => .ok ([], l)
  | l, item :: items => do
    let at' ← l.seekInWords maxWidth padding item.image.width
    let next ← at'.addInWords padding item.image.width item.image.height
    let rest ← placeAllInWords maxWidth padding next items
    return (⟨item.transform, at'.x, at'.y, item.image.width, item.image.height⟩ :: rest.1, rest.2)

/-- An atlas that is packed in machine words: coordinates have 32 bits and byte counts 64. What painting computes are
offsets into the buffer, which words hold if they hold its size. -/
def Atlas.packInWords (items : List AtlasItem) (maxWidth padding : Nat) : Except Fault Atlas := do
  let (placements, l) ← placeAllInWords maxWidth padding (.start padding) items
  let width := l.width padding
  let height ← l.heightInWords padding
  let data ← allocate 0 (← productIn UInt64.size (← productIn UInt64.size width 4) height)
  let canvas ← (placements.zip items).foldlM
    (fun c (p, item) ↦ c.paint padding p.x p.y item.image) (Canvas.mk width data)
  return ⟨⟨width, height, .rgba, canvas.data, false⟩, placements⟩

def Image.isPackableInWords (i : Image) : Except Fault Bool := do
  if i.kind = .rgba then
    return (← productIn UInt64.size (i.kind.rowBytes i.width) i.height) ≤ i.data.size
  else
    return false

/-- How far the items reach to the right if they stand in one row. -/
def Atlas.breadth (padding : Nat) (items : List AtlasItem) : Nat :=
  padding + (items.map fun item ↦ item.image.width + 2 * padding).sum

def Atlas.depth (padding : Nat) (items : List AtlasItem) : Nat :=
  2 * padding + (items.map fun item ↦ item.image.height + 2 * padding).sum

/-- Words hold the coordinates and the bytes of an atlas of these items. -/
structure Atlas.InRange (items : List AtlasItem) (padding : Nat) : Prop where
  breadth_lt : Atlas.breadth padding items < UInt32.size
  depth_lt : Atlas.depth padding items < UInt32.size
  size_lt : Atlas.breadth padding items * 4 * Atlas.depth padding items < UInt64.size / 2

/-- Words hold the sizes of the images that a stream paints inline, and of the atlases that come of them. -/
structure InRange (l : Limits) (is : List Instruction) : Prop where
  images : ∀ i ∈ is, i.tag = .paintInlineImage → ∀ r, firstImage? i.args = some r →
    r.image.expectedLength < UInt64.size
  atlases : ∀ (gs : List Quartet) (images : List Resource),
    gs.flatMap (Quartet.instructions .paintInlineImage) <:+: is → gs.length ≤ l.maxInlineImages →
    gs.map (fun g ↦ firstImage? g.paint) = images.map some →
    Atlas.InRange (gs.zipWith (fun g r ↦ ⟨g.transform, r.image⟩) images) l.atlasPadding

def PaintsPacked (l : Limits) (i : Instruction) : Prop :=
  ∃ items atlas, Atlas.packInWords items l.maxAtlasWidth l.atlasPadding = .ok atlas ∧
    i.args = [.image ⟨none, atlas.image⟩, .placements atlas.placements]

section Words

variable {size a b : Nat}

theorem sumIn_ok (h : a + b < size) : sumIn size a b = .ok (a + b) := if_pos h

theorem productIn_ok (h : a * b < size) : productIn size a b = .ok (a * b) := if_pos h

end Words

namespace Layout

variable {l : Layout} {maxWidth padding w h rest depth : Nat}

theorem wrapInWords_eq (hy : l.y + l.rowHeight + 2 * padding < UInt32.size) :
    l.wrapInWords padding = .ok (l.wrap padding) := by
  have hborder : 2 * padding < UInt32.size := by omega
  have hrow : l.rowHeight + 2 * padding < UInt32.size := by omega
  have hsum : l.y + (l.rowHeight + 2 * padding) < UInt32.size := by omega
  rw [wrapInWords, productIn_ok hborder, ok_bind, sumIn_ok hrow, ok_bind, sumIn_ok hsum, wrap, Nat.add_assoc]
  rfl

theorem seekInWords_eq (hx : l.x + w < UInt32.size) (hy : l.y + l.rowHeight + 2 * padding < UInt32.size) :
    l.seekInWords maxWidth padding w = .ok (l.seek maxWidth padding w) := by
  rw [seekInWords, seek, isFull]
  by_cases hfirst : padding < l.x
  · rw [if_pos hfirst, sumIn_ok hx, ok_bind]
    by_cases hfull : maxWidth < l.x + w
    · rw [if_pos hfull, if_pos (by simp [hfirst, hfull]), wrapInWords_eq hy]
    · rw [if_neg hfull, if_neg (by simp [hfull])]
      rfl
  · rw [if_neg hfirst, if_neg (by simp [hfirst])]
    rfl

theorem addInWords_eq (hx : l.x + w + 2 * padding < UInt32.size) :
    l.addInWords padding w h = .ok (l.add padding w h) := by
  have hborder : 2 * padding < UInt32.size := by omega
  have hwidth : w + 2 * padding < UInt32.size := by omega
  have hsum : l.x + (w + 2 * padding) < UInt32.size := by omega
  rw [addInWords, productIn_ok hborder, ok_bind, sumIn_ok hwidth, ok_bind, sumIn_ok hsum, add, Nat.add_assoc]
  rfl

theorem heightInWords_eq (hy : l.height padding < UInt32.size) : l.heightInWords padding = .ok (l.height padding) := by
  have hrow : l.y + l.rowHeight < UInt32.size := by
    rw [height] at hy
    omega
  rw [heightInWords, sumIn_ok hrow, ok_bind]
  exact sumIn_ok hy

/-- However items that take this much are placed from here on, they stay within these bounds. -/
structure Keeps (l : Layout) (padding across down w h : Nat) : Prop where
  x : l.x + w ≤ across
  widest : l.widest ≤ across
  y : l.y + l.rowHeight + padding + h ≤ down

variable {across down : Nat}

theorem keeps_start (padding w h : Nat) : (start padding).Keeps padding (padding + w) (2 * padding + h) w h := by
  refine ⟨le_rfl, Nat.zero_le _, ?_⟩
  simp only [start]
  omega

theorem Keeps.place (hk : l.Keeps padding across down (w + 2 * padding + rest) (h + 2 * padding + depth)) :
    ((l.seek maxWidth padding w).add padding w h).Keeps padding across down rest depth := by
  obtain ⟨hx, hwidest, hy⟩ := hk
  rw [seek]
  split
  · rename_i hfull
    simp only [isFull, Bool.and_eq_true, decide_eq_true_eq] at hfull
    simp only [add, wrap]
    exact ⟨by dsimp only; omega, by dsimp only; omega, by dsimp only; omega⟩
  · simp only [add]
    exact ⟨by dsimp only; omega, by dsimp only; omega, by dsimp only; omega⟩

end Layout

section Packing

variable {l : Layout} {maxWidth padding across down : Nat} {items : List AtlasItem}

theorem keeps_placeAll (items : List AtlasItem)
    (hk : l.Keeps padding across down (items.map fun item ↦ item.image.width + 2 * padding).sum
      (items.map fun item ↦ item.image.height + 2 * padding).sum) :
    (placeAll maxWidth padding l items).2.Keeps padding across down 0 0 := by
  induction items generalizing l with
  | nil => exact hk
  | cons item items ih => exact ih hk.place

theorem placeAllInWords_eq (hacross : across < UInt32.size) (hdown : down < UInt32.size) (items : List AtlasItem)
    (hk : l.Keeps padding across down (items.map fun item ↦ item.image.width + 2 * padding).sum
      (items.map fun item ↦ item.image.height + 2 * padding).sum) :
    placeAllInWords maxWidth padding l items = .ok (placeAll maxWidth padding l items) := by
  induction items generalizing l with
  | nil => rfl
  | cons item items ih =>
    have hnext : ((l.seek maxWidth padding item.image.width).add padding item.image.width item.image.height).Keeps
        padding across down _ _ := hk.place
    have hx := hk.x
    have hy := hk.y
    simp only [List.map_cons, List.sum_cons] at hx hy
    have hright := hnext.x
    simp only [Layout.add] at hright
    rw [placeAllInWords, Layout.seekInWords_eq (by omega) (by omega), ok_bind, Layout.addInWords_eq (by omega), ok_bind,
      ih hnext]
    rfl

/-- In range nothing overflows, so packing in machine words comes to the same as packing in numbers without bound. -/
theorem Atlas.packInWords_eq (h : InRange items padding) :
    packInWords items maxWidth padding = pack items maxWidth padding := by
  let l := (placeAll maxWidth padding (.start padding) items).2
  have hstart : (Layout.start padding).Keeps padding (Atlas.breadth padding items) (Atlas.depth padding items) _ _ :=
    Layout.keeps_start padding _ _
  have hend : l.Keeps padding (Atlas.breadth padding items) (Atlas.depth padding items) 0 0 :=
    keeps_placeAll items hstart
  have hwidth : l.width padding ≤ Atlas.breadth padding items :=
    (Nat.sub_le _ _).trans (max_le hend.widest hend.x)
  have hheight : l.height padding ≤ Atlas.depth padding items := hend.y
  have hbytes : l.width padding * 4 * l.height padding < UInt64.size / 2 :=
    (Nat.mul_le_mul (Nat.mul_le_mul_right 4 hwidth) hheight).trans_lt h.size_lt
  have hrow : l.width padding * 4 < UInt64.size :=
    (Nat.mul_lt_mul_of_pos_right (hwidth.trans_lt h.breadth_lt) (by decide)).trans (by decide)
  rw [packInWords, placeAllInWords_eq h.breadth_lt h.depth_lt items hstart, ok_bind]
  dsimp only
  rw [Layout.heightInWords_eq (hheight.trans_lt h.depth_lt), ok_bind, productIn_ok hrow, ok_bind,
    productIn_ok (hbytes.trans (by decide)), ok_bind, allocate, if_pos hbytes, ok_bind]
  rfl

example : Atlas.InRange [⟨[], ⟨1, 1, .rgba, ⟨#[0, 0, 0, 255]⟩, false⟩⟩, ⟨[], ⟨40000, 2, .rgba, .empty, false⟩⟩] 1 :=
  ⟨by decide, by decide, by decide⟩

theorem Image.isPackableInWords_eq {i : Image} (h : i.expectedLength < UInt64.size) :
    i.isPackableInWords = .ok i.isPackable := by
  rw [isPackableInWords, isPackable]
  split
  · rename_i hkind
    rw [productIn_ok h, ok_bind, decide_eq_true hkind, Bool.true_and]
    rfl
  · rename_i hkind
    rw [decide_eq_false hkind]
    rfl

end Packing

section Streams

variable {l : Limits} {is js q s t : List Instruction} {i : Instruction}

theorem InRange.of_infix (h : InRange l is) (hpart : js <:+: is) : InRange l js :=
  ⟨fun i hi ↦ h.images i (hpart.subset hi), fun gs images hgs ↦ h.atlases gs images (hgs.trans hpart)⟩

theorem InRange.isPackable (h : InRange l is) (hi : i ∈ is) (htag : i.tag = .paintInlineImage) {r : Resource}
    (hr : firstImage? i.args = some r) : r.image.isPackableInWords = .ok r.image.isPackable :=
  Image.isPackableInWords_eq (h.images i hi htag r hr)

theorem Rewrite.paintsPacked (h : Rewrite l s t) (hr : InRange l s) (hi : i ∈ t)
    (htag : i.tag = .paintInlineImageGroup) : i ∈ s ∨ PaintsPacked l i := by
  cases h with
  | same => exact .inl hi
  | solidMask | imageRepeat | maskRepeat | maskGroup =>
    obtain rfl := List.mem_singleton.1 hi
    simp [Tag.paintInlineImageGroup, Tag.paintSolidMask, Tag.paintImageRepeat, Tag.paintImageMaskRepeat,
      Tag.paintImageMaskGroup] at htag
  | inlineGroup gs images atlas least most paints packable packed =>
    obtain rfl := List.mem_singleton.1 hi
    rw [← Atlas.packInWords_eq (hr.atlases gs images List.infix_rfl most paints)] at packed
    exact .inr ⟨_, atlas, packed, rfl⟩
  | text w ws => exact absurd (w.tag_mem_group hi) (htag ▸ by decide)
  | joinedText w₀ w ws => exact absurd (w₀.tag_mem_group (List.mem_of_mem_tail hi)) (htag ▸ by decide)

/-- What is drawn of a stream in range has no atlas but those of the stream, and such as machine words hold. -/
theorem Draws.paintsPacked (h : Draws l is q) (hr : InRange l is) (hi : i ∈ q)
    (htag : i.tag = .paintInlineImageGroup) : i ∈ is ∨ PaintsPacked l i := by
  obtain ⟨cuts, hcuts, rfl, rfl⟩ := h
  obtain ⟨cut, hcut, hi⟩ := List.mem_flatMap.1 hi
  have hpart : cut.1 <:+: cuts.flatMap (·.1) := by
    obtain ⟨front, back, rfl⟩ := List.append_of_mem hcut
    exact ⟨front.flatMap (·.1), back.flatMap (·.1), by simp⟩
  obtain hsame | hpacked := (hcuts cut hcut).2.paintsPacked (hr.of_infix hpart) hi htag
  · exact .inl (List.mem_flatMap.2 ⟨cut, hcut, hsame⟩)
  · exact .inr hpacked

theorem Optimizer.optimized_paintsPacked (hl : l.violation? = none) (hr : InRange l is)
    (hi : i ∈ (optimized l is).toList) (htag : i.tag = .paintInlineImageGroup) : i ∈ is ∨ PaintsPacked l i :=
  (optimized_draws hl is).2.paintsPacked hr hi htag

theorem Builder.Parcel.Delivers.paintsPacked {p : Builder.Parcel} (h : p.Delivers (some l)) (hl : l.violation? = none)
    (hr : InRange l p.appended) (hi : i ∈ p.chunk.columns.toList) (htag : i.tag = .paintInlineImageGroup) :
    i ∈ p.appended ∨ PaintsPacked l i := by
  obtain ⟨q, hq, -, hdraws⟩ := h.columns
  rw [hq, Columns.toList_ofList] at hi
  exact (hdraws hl).paintsPacked hr hi htag

end Streams

end DisplayList
