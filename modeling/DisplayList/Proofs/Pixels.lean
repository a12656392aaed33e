import DisplayList.Proofs.Atlas

namespace DisplayList

section Bytes

variable {b b' piece : ByteArray} {start length target : Nat}

theorem getElem?_slice (h : slice b start length = .ok piece) :
    piece.size = length ∧ ∀ i < length, piece.data[i]? = b.data[start + i]? := by
  rw [slice] at h
  split at h
  · rename_i hle
    have hsize : start + length ≤ b.data.size := hle
    obtain rfl := Except.ok.inj h
    refine ⟨by rw [ByteArray.size_extract]; omega, fun i hi ↦ ?_⟩
    rw [ByteArray.data_extract, Array.getElem?_extract, if_pos (by omega)]
  · cases h

theorem getElem?_overwrite (h : overwrite b start piece = .ok b') (i : Nat) :
    b'.data[i]? = if start ≤ i ∧ i < start + piece.size then piece.data[i - start]? else b.data[i]? := by
  rw [overwrite] at h
  split at h
  · rename_i hle
    have hsize : start + piece.data.size ≤ b.data.size := hle
    obtain rfl := Except.ok.inj h
    rw [ByteArray.copySlice]
    simp only [ByteArray.size, Nat.sub_zero, Nat.min_self, Nat.zero_add, Array.extract_size]
    have hfront : (b.data.extract 0 start).size = start := by rw [Array.size_extract]; omega
    have hback : (b.data.extract 0 start ++ piece.data).size = start + piece.data.size := by
      rw [Array.size_append, hfront]
    obtain hlt | hge := Nat.lt_or_ge i (start + piece.data.size)
    · rw [Array.getElem?_append_left (by rwa [hback])]
      obtain hbefore | hin := Nat.lt_or_ge i start
      · rw [if_neg (by omega), Array.getElem?_append_left (by rwa [hfront]), Array.getElem?_extract, if_pos (by omega),
          Nat.zero_add]
      · rw [if_pos ⟨hin, hlt⟩, Array.getElem?_append_right (hfront.trans_le hin), hfront]
    · rw [if_neg (by omega), Array.getElem?_append_right (hback.trans_le hge), hback, Array.getElem?_extract]
      split
      · rw [Nat.add_sub_cancel' hge]
      · rw [Array.getElem?_eq_none (by omega)]
  · cases h

theorem getElem?_copyWithin (h : copyWithin b start length target = .ok b') (i : Nat) :
    b'.data[i]? = if target ≤ i ∧ i < target + length then b.data[start + (i - target)]? else b.data[i]? := by
  obtain ⟨piece, hpiece, hplaced⟩ := bind_eq_ok h
  obtain ⟨rfl, hat⟩ := getElem?_slice hpiece
  rw [getElem?_overwrite hplaced]
  split
  · rename_i hi
    exact hat _ (by omega)
  · rfl

end Bytes

section Loops

variable {ε σ : Type} {n : Nat}

theorem foldlM_range_keeps {P : Nat → σ → Prop} {f : σ → Nat → Except ε σ}
    (h : ∀ k < n, ∀ s s', P k s → f s k = .ok s' → P (k + 1) s') {s s' : σ} (hs : P 0 s)
    (hend : (List.range n).foldlM f s = .ok s') : P n s' := by
  induction n generalizing s' with
  | zero =>
    cases hend
    exact hs
  | succ n ih =>
    rw [List.range_succ, List.foldlM_append] at hend
    obtain ⟨s₁, hs₁, hlast⟩ := bind_eq_ok hend
    obtain ⟨s₂, hs₂, hnil⟩ := bind_eq_ok hlast
    cases hnil
    exact h n (Nat.lt_succ_self n) _ _ (ih (fun k hk ↦ h k (hk.trans (Nat.lt_succ_self n))) hs₁) hs₂

theorem eq_of_distance {low high d : Nat} (h : distance low high = .ok d) : low ≤ high ∧ d = high - low := by
  rw [distance] at h
  split at h
  · rename_i hle
    exact ⟨hle, (Except.ok.inj h).symm⟩
  · cases h

end Loops

def sample (b : ByteArray) (width col row channel : Nat) : Option UInt8 := b.data[(row * width + col) * 4 + channel]?

theorem mem_stretch_iff {width col right channel : Nat} (row row' left : Nat) (hcol : col < width)
    (hchannel : channel < 4) (hright : right ≤ width) :
    (row' * width + left) * 4 ≤ (row * width + col) * 4 + channel ∧
      (row * width + col) * 4 + channel < (row' * width + right) * 4 ↔ row = row' ∧ left ≤ col ∧ col < right := by
  obtain hlt | rfl | hgt := Nat.lt_trichotomy row row'
  · have hrows := Nat.mul_le_mul_right width hlt
    rw [Nat.succ_mul] at hrows
    omega
  · omega
  · have hrows := Nat.mul_le_mul_right width hgt
    rw [Nat.succ_mul] at hrows
    omega

/-- What is seen at each byte of each pixel. -/
abbrev Picture := Nat → Nat → Nat → Option UInt8

/-- `g` in front of `f`, from `left` to `right` and from `top` to `bottom`. -/
def Picture.over (f g : Picture) (left right top bottom : Nat) : Picture := fun col row channel ↦
  if (left ≤ col ∧ col < right) ∧ top ≤ row ∧ row < bottom then g col row channel else f col row channel

/-- An image at `(x, y)`, with its edges going on to all sides. -/
def Image.spread (i : Image) (x y : Nat) : Picture := fun col row channel ↦
  sample i.data i.width (min (col - x) (i.width - 1)) (min (row - y) (i.height - 1)) channel

/-- Of the `n` places from `start` on, the one nearest to `i`. The subtraction stops at zero. -/
def nearest (start n i : Nat) : Nat := start + min (i - start) (n - 1)

theorem nearest_of_lt {start n i : Nat} (hs : start ≤ i) (hi : i < start + n) : nearest start n i = i := by
  rw [nearest]
  omega

namespace Canvas

variable {c c' : Canvas} {width height padding x y w h : Nat} {f g : Picture} {image : Image}

structure Shows (c : Canvas) (width : Nat) (f : Picture) : Prop where
  width_eq : c.width = width
  sample_eq : ∀ col row channel, col < width → channel < 4 → sample c.data width col row channel = f col row channel

theorem Shows.stride_eq (hc : c.Shows width f) : c.stride = width * 4 := by rw [stride, hc.width_eq]

theorem Shows.congr (hc : c.Shows width f)
    (hfg : ∀ col row channel, col < width → channel < 4 → f col row channel = g col row channel) : c.Shows width g :=
  ⟨hc.width_eq, fun col row channel hcol hchannel ↦
    (hc.sample_eq col row channel hcol hchannel).trans (hfg col row channel hcol hchannel)⟩

theorem Shows.copy {start length target sx sy tx ty n : Nat} (hc : c.Shows width f)
    (h : c.copy start length target = .ok c') (hs : start = (sy * width + sx) * 4) (hn : length = n * 4)
    (ht : target = (ty * width + tx) * 4) (hsx : sx + n ≤ width) (htx : tx + n ≤ width) :
    c'.Shows width (f.over (fun col _ channel ↦ f (sx + (col - tx)) sy channel) tx (tx + n) ty (ty + 1)) := by
  obtain ⟨data, hdata, hc'⟩ := bind_eq_ok h
  cases hc'
  refine ⟨hc.width_eq, fun col row channel hcol hchannel ↦ ?_⟩
  have hiff := mem_stretch_iff row ty tx hcol hchannel htx
  have hend : (ty * width + (tx + n)) * 4 = target + length := by omega
  rw [← ht, hend] at hiff
  rw [sample, getElem?_copyWithin hdata, Picture.over]
  by_cases hin : row = ty ∧ tx ≤ col ∧ col < tx + n
  · rw [if_pos (hiff.2 hin), if_pos ⟨hin.2, by omega, by omega⟩]
    obtain ⟨rfl, hcols⟩ := hin
    rw [← hc.sample_eq (sx + (col - tx)) sy channel (by omega) hchannel, sample]
    congr 1
    omega
  · rw [if_neg (mt hiff.1 hin), if_neg (by omega), ← hc.sample_eq col row channel hcol hchannel, sample]

theorem Shows.putRows (hc : c.Shows width f) (hx : x + image.width ≤ width) (h : c.putRows x y image = .ok c') :
    c'.Shows width (f.over (fun col row channel ↦ sample image.data image.width (col - x) (row - y) channel)
      x (x + image.width) y (y + image.height)) := by
  rw [Canvas.putRows, hc.stride_eq] at h
  refine foldlM_range_keeps (P := fun k c' ↦ c'.Shows width (f.over
    (fun col row channel ↦ sample image.data image.width (col - x) (row - y) channel) x (x + image.width) y (y + k)))
    (fun k hk c₁ c₂ hc₁ hstep ↦ ?_) ?_ h
  · obtain ⟨piece, hpiece, hstep⟩ := bind_eq_ok hstep
    obtain ⟨data, hdata, hstep⟩ := bind_eq_ok hstep
    cases hstep
    obtain ⟨hsize, hat⟩ := getElem?_slice hpiece
    refine ⟨hc₁.width_eq, fun col row channel hcol hchannel ↦ ?_⟩
    have hiff := mem_stretch_iff row (y + k) x hcol hchannel hx
    have hstart : ((y + k) * width + x) * 4 = (y + k) * (width * 4) + x * 4 := by ring
    have hend : ((y + k) * width + (x + image.width)) * 4 = (y + k) * (width * 4) + x * 4 + piece.size := by
      rw [hsize]
      ring
    rw [hstart, hend] at hiff
    have hold := hc₁.sample_eq col row channel hcol hchannel
    rw [Picture.over] at hold ⊢
    rw [sample, getElem?_overwrite hdata]
    by_cases hin : row = y + k ∧ x ≤ col ∧ col < x + image.width
    · rw [if_pos (hiff.2 hin), if_pos (by omega)]
      obtain ⟨rfl, hcols⟩ := hin
      have hindex :
          ((y + k) * width + col) * 4 + channel - ((y + k) * (width * 4) + x * 4) = (col - x) * 4 + channel := by
        rw [← hstart]
        omega
      have hsource :
          k * (image.width * 4) + ((col - x) * 4 + channel) = (k * image.width + (col - x)) * 4 + channel := by
        ring
      rw [hindex, hat _ (by omega), hsource, sample, Nat.add_sub_cancel_left]
    · rw [if_neg (mt hiff.1 hin), ← sample, hold]
      split <;> split <;> first | rfl | omega
  · refine hc.congr fun col row channel hcol hchannel ↦ ?_
    rw [Picture.over, if_neg (by omega)]

theorem Shows.extendRows (hc : c.Shows width f) (hx : x + w ≤ width) (hy : padding ≤ y) (hh : 0 < h)
    (hext : c.extendRows padding x y w h = .ok c') :
    c'.Shows width (f.over (fun col row channel ↦ f col (nearest y h row) channel)
      x (x + w) (y - padding) (y + h + padding)) := by
  rw [Canvas.extendRows, hc.stride_eq] at hext
  dsimp only at hext
  rw [distance_ok (by omega), ok_bind] at hext
  refine foldlM_range_keeps (P := fun k c' ↦ c'.Shows width (f.over
    (fun col row channel ↦ f col (nearest y h row) channel) x (x + w) (y - k) (y + h + k)))
    (fun k hk c₁ c₂ hc₁ hstep ↦ ?_) ?_ hext
  · obtain ⟨above, habove, hstep⟩ := bind_eq_ok hstep
    obtain ⟨habove', rfl⟩ := eq_of_distance habove
    obtain ⟨c₃, htop, hbottom⟩ := bind_eq_ok hstep
    have hlift : y * (width * 4) + x * 4 - (k + 1) * (width * 4) = ((y - (k + 1)) * width + x) * 4 := by
      rw [Nat.sub_eq_iff_eq_add habove']
      conv_lhs => rw [← Nat.sub_add_cancel (show k + 1 ≤ y by omega)]
      ring
    have hlower : (y + h - 1) * (width * 4) + x * 4 + (k + 1) * (width * 4) = ((y + h + k) * width + x) * 4 := by
      rw [show y + h + k = y + h - 1 + (k + 1) by omega]
      ring
    have hc₃ := hc₁.copy htop (show _ = (y * width + x) * 4 by ring) rfl hlift hx hx
    have hc₂ := hc₃.copy hbottom (show _ = ((y + h - 1) * width + x) * 4 by ring) rfl hlower hx hx
    refine hc₂.congr fun col row channel hcol hchannel ↦ ?_
    simp only [Picture.over]
    by_cases hcols : x ≤ col ∧ col < x + w
    · have hsame : x + (col - x) = col := by omega
      simp only [hcols, hsame, true_and, and_self]
      obtain rfl | hbelow := eq_or_ne row (y + h + k)
      · rw [if_pos (by omega), if_neg (by omega), if_pos (by omega), if_pos (by omega)]
        congr 1
        rw [nearest, nearest]
        omega
      rw [if_neg (by omega)]
      obtain rfl | habove := eq_or_ne row (y - (k + 1))
      · rw [if_pos (by omega), if_pos (by omega), if_pos (by omega)]
        congr 1
        rw [nearest, nearest]
        omega
      rw [if_neg (by omega)]
      by_cases hin : y - k ≤ row ∧ row < y + h + k
      · rw [if_pos hin, if_pos (by omega)]
      · rw [if_neg hin, if_neg (by omega)]
    · simp only [hcols, false_and, if_false]
  · refine hc.congr fun col row channel hcol hchannel ↦ ?_
    rw [Nat.sub_zero, Nat.add_zero, Picture.over]
    split
    · rename_i hin
      rw [nearest_of_lt hin.2.1 hin.2.2]
    · rfl

theorem Shows.extendRow {r : Nat} (hc : c.Shows width f) (hx : padding ≤ x) (hw : 0 < w) (hxw : x + w + padding ≤ width)
    (hext : c.extendRow padding (r * (width * 4) + x * 4) (r * (width * 4) + x * 4 + w * 4 - 4) = .ok c') :
    c'.Shows width (f.over (fun col row channel ↦ f (nearest x w col) row channel)
      (x - padding) (x + w + padding) r (r + 1)) := by
  refine foldlM_range_keeps (P := fun k c' ↦ c'.Shows width (f.over
    (fun col row channel ↦ f (nearest x w col) row channel) (x - k) (x + w + k) r (r + 1)))
    (fun k hk c₁ c₂ hc₁ hstep ↦ ?_) ?_ hext
  · obtain ⟨before, hbefore, hstep⟩ := bind_eq_ok hstep
    obtain ⟨-, rfl⟩ := eq_of_distance hbefore
    obtain ⟨c₃, hleft, hright⟩ := bind_eq_ok hstep
    have hfirst : r * (width * 4) + x * 4 = (r * width + x) * 4 := by ring
    rw [hfirst] at hleft hright
    have hc₃ := hc₁.copy hleft rfl (show 4 = 1 * 4 from rfl) (show _ = (r * width + (x - (k + 1))) * 4 by omega)
      (by omega) (by omega)
    have hc₂ := hc₃.copy hright (show _ = (r * width + (x + w - 1)) * 4 by omega) (show 4 = 1 * 4 from rfl)
      (show _ = (r * width + (x + w + k)) * 4 by omega) (by omega) (by omega)
    refine hc₂.congr fun col row channel hcol hchannel ↦ ?_
    simp only [Picture.over]
    by_cases hrow : r ≤ row ∧ row < r + 1
    · obtain rfl : row = r := by omega
      simp only [hrow, and_true]
      obtain rfl | hafter := eq_or_ne col (x + w + k)
      · have hlast : x + w - 1 + (x + w + k - (x + w + k)) = x + w - 1 := by omega
        rw [if_pos (by omega), hlast, if_neg (by omega), if_pos (by omega), if_pos (by omega)]
        congr 1
        rw [nearest, nearest]
        omega
      rw [if_neg (by omega)]
      obtain rfl | hbefore := eq_or_ne col (x - (k + 1))
      · have hfirst : x + (x - (k + 1) - (x - (k + 1))) = x := by omega
        rw [if_pos (by omega), hfirst, if_pos (by omega), if_pos (by omega)]
        congr 1
        rw [nearest, nearest]
        omega
      rw [if_neg (by omega)]
      by_cases hin : x - k ≤ col ∧ col < x + w + k
      · rw [if_pos hin, if_pos (by omega)]
      · rw [if_neg hin, if_neg (by omega)]
    · simp only [hrow, and_false, if_false]
  · refine hc.congr fun col row channel hcol hchannel ↦ ?_
    rw [Nat.sub_zero, Nat.add_zero, Picture.over]
    split
    · rename_i hin
      rw [nearest_of_lt hin.1.1 hin.1.2]
    · rfl

theorem Shows.extendColumns (hc : c.Shows width f) (hx : padding ≤ x) (hy : padding ≤ y) (hw : 0 < w)
    (hxw : x + w + padding ≤ width) (hext : c.extendColumns padding x y w h = .ok c') :
    c'.Shows width (f.over (fun col row channel ↦ f (nearest x w col) row channel)
      (x - padding) (x + w + padding) (y - padding) (y + h + padding)) := by
  rw [Canvas.extendColumns, hc.stride_eq, distance_ok hy, ok_bind] at hext
  have hbottom : y + h + padding = y - padding + (h + 2 * padding) := by omega
  rw [hbottom]
  refine foldlM_range_keeps (P := fun k c' ↦ c'.Shows width (f.over
    (fun col row channel ↦ f (nearest x w col) row channel) (x - padding) (x + w + padding) (y - padding)
    (y - padding + k))) (fun k hk c₁ c₂ hc₁ hstep ↦ ?_) ?_ hext
  · obtain ⟨right, hright, hstep⟩ := bind_eq_ok hstep
    obtain ⟨-, rfl⟩ := eq_of_distance hright
    refine (hc₁.extendRow hx hw hxw hstep).congr fun col row channel hcol hchannel ↦ ?_
    simp only [Picture.over]
    obtain rfl | hother := eq_or_ne row (y - padding + k)
    · by_cases hcols : x - padding ≤ col ∧ col < x + w + padding
      · rw [if_pos ⟨hcols, by omega⟩, if_neg (by omega), if_pos ⟨hcols, by omega⟩]
      · rw [if_neg (by omega), if_neg (by omega), if_neg (by omega)]
    rw [if_neg (by omega)]
    by_cases hin : (x - padding ≤ col ∧ col < x + w + padding) ∧ y - padding ≤ row ∧ row < y - padding + k
    · rw [if_pos hin, if_pos (by omega)]
    · rw [if_neg hin, if_neg (by omega)]
  · refine hc.congr fun col row channel hcol hchannel ↦ ?_
    rw [Picture.over, if_neg (by omega)]

/-- An image and its border show the nearest pixels of the image, and all else is as it was. -/
theorem Shows.paint (hc : c.Shows width f) (hr : HasRoom padding x y image.width image.height width height)
    (hw : 0 < image.width) (hh : 0 < image.height) (hpaint : c.paint padding x y image = .ok c') :
    c'.Shows width (f.over (image.spread x y) (x - padding) (x + image.width + padding) (y - padding)
      (y + image.height + padding)) := by
  obtain ⟨hx, hy, hright, -⟩ := hr
  rw [Canvas.paint, if_neg (by omega)] at hpaint
  obtain ⟨c₁, hrows, hpaint⟩ := bind_eq_ok hpaint
  obtain ⟨c₂, hextend, hcolumns⟩ := bind_eq_ok hpaint
  have hc₁ := hc.putRows (by omega) hrows
  have hc₂ := hc₁.extendRows (by omega) hy hh hextend
  refine (hc₂.extendColumns hx hy hw hright hcolumns).congr fun col row channel hcol hchannel ↦ ?_
  simp only [Picture.over, Image.spread]
  by_cases hin : (x - padding ≤ col ∧ col < x + image.width + padding) ∧ y - padding ≤ row ∧
      row < y + image.height + padding
  · -- The nearest pixel stands in the image itself, so both borders lead there.
    have hcolIn : x ≤ nearest x image.width col ∧ nearest x image.width col < x + image.width := by
      rw [nearest]
      omega
    have hrowIn : y ≤ nearest y image.height row ∧ nearest y image.height row < y + image.height := by
      rw [nearest]
      omega
    rw [if_pos hin, if_pos ⟨hcolIn, hin.2⟩, if_pos ⟨hcolIn, hrowIn⟩, if_pos hin, nearest, nearest,
      Nat.add_sub_cancel_left, Nat.add_sub_cancel_left]
  · rw [if_neg hin, if_neg (by omega), if_neg (by omega), if_neg hin]

theorem data_filled (byte : UInt8) (n : Nat) : (filled byte n).data = Array.replicate n byte := by
  induction n using Nat.strongRecOn with
  | _ n ih =>
    rw [filled]
    split
    · rename_i hzero
      rw [hzero]
      rfl
    · have hhalf := ih (n / 2) (by omega)
      dsimp only
      split
      · rw [ByteArray.data_append, hhalf, Array.replicate_append_replicate]
        congr 1
        omega
      · rw [ByteArray.data_push, ByteArray.data_append, hhalf, Array.replicate_append_replicate, ← Array.replicate_succ]
        congr 1
        omega

theorem shows_blank (width height : Nat) :
    (blank width height).Shows width fun _ row _ ↦ if row < height then some 0 else none := by
  refine ⟨rfl, fun col row channel hcol hchannel ↦ ?_⟩
  have hbytes : (row * width + col) * 4 + channel < width * 4 * height ↔ row < height := by
    constructor
    · intro hlt
      by_contra hge
      have hrows := Nat.mul_le_mul_right width (Nat.le_of_not_lt hge)
      rw [show width * 4 * height = height * width * 4 by ring] at hlt
      omega
    · intro hlt
      have hrow : row * (width * 4) + col * 4 + 4 ≤ width * 4 * height := stretch_le _ _ hlt (by omega)
      rw [show row * (width * 4) = row * width * 4 by ring] at hrow
      omega
  rw [sample, blank, data_filled, Array.getElem?_replicate]
  simp only [hbytes]

end Canvas

def Placement.Covers (p : Placement Arg) (padding col row : Nat) : Prop :=
  (p.x ≤ col + padding ∧ col < p.x + p.w + padding) ∧ p.y ≤ row + padding ∧ row < p.y + p.h + padding

section Placing

variable {maxWidth padding : Nat} {l : Layout} {items : List AtlasItem} {p : Placement Arg} {item : AtlasItem}

theorem placeAll_eq (maxWidth padding : Nat) (l : Layout) (items : List AtlasItem) :
    (placeAll maxWidth padding l items).1.map (fun p ↦ (p.transform, p.w, p.h)) =
      items.map fun item ↦ (item.transform, item.image.width, item.image.height) := by
  induction items generalizing l with
  | nil => rfl
  | cons item items ih =>
    rw [placeAll, List.map_cons, List.map_cons, ih]

theorem length_placeAll (maxWidth padding : Nat) (l : Layout) (items : List AtlasItem) :
    (placeAll maxWidth padding l items).1.length = items.length := by
  have := congrArg List.length (placeAll_eq maxWidth padding l items)
  rwa [List.length_map, List.length_map] at this

theorem size_of_mem_zip (h : (p, item) ∈ (placeAll maxWidth padding l items).1.zip items) :
    p.w = item.image.width ∧ p.h = item.image.height := by
  induction items generalizing l with
  | nil => simp at h
  | cons item' items ih =>
    rw [placeAll, List.zip_cons_cons, List.mem_cons] at h
    obtain h | h := h
    · obtain ⟨rfl, rfl⟩ := Prod.mk.inj h
      exact ⟨rfl, rfl⟩
    · exact ih h

theorem beyond_of_mem_placeAll (h : p ∈ (placeAll maxWidth padding l items).1) :
    (p.y = l.y ∧ l.x ≤ p.x) ∨ l.bottom + 2 * padding ≤ p.y := by
  induction items generalizing l with
  | nil => cases h
  | cons item items ih =>
    rw [placeAll, List.mem_cons] at h
    have hseek : (l.seek maxWidth padding item.image.width = l) ∨
        (l.seek maxWidth padding item.image.width).y = l.bottom + 2 * padding := by
      rw [Layout.seek]
      split
      · exact .inr rfl
      · exact .inl rfl
    obtain rfl | hp := h
    · exact hseek.imp (fun hsame ↦ ⟨congrArg Layout.y hsame, (congrArg Layout.x hsame).ge⟩) Eq.ge
    · have hnext := ih hp
      simp only [Layout.add, Layout.bottom] at hnext hseek ⊢
      obtain hsame | hbelow := hseek
      · rw [hsame] at hnext
        omega
      · omega

theorem apart_placeAll (maxWidth padding : Nat) (l : Layout) (items : List AtlasItem) :
    (placeAll maxWidth padding l items).1.Pairwise fun p p' ↦
      ∀ col row, p.Covers padding col row → ¬ p'.Covers padding col row := by
  induction items generalizing l with
  | nil => exact .nil
  | cons item items ih =>
    rw [placeAll]
    refine .cons (fun p hp col row hcovers hcovers' ↦ ?_) (ih _)
    have hbeyond := beyond_of_mem_placeAll hp
    simp only [Layout.add, Layout.bottom] at hbeyond
    simp only [Placement.Covers] at hcovers hcovers'
    omega

end Placing

namespace Canvas

variable {c c' : Canvas} {width height padding : Nat} {f : Picture} {p : Placement Arg} {item : AtlasItem}

theorem Shows.place (hc : c.Shows width f)
    (hroom : HasRoom padding p.x p.y item.image.width item.image.height width height)
    (hsize : p.w = item.image.width ∧ p.h = item.image.height)
    (hpaint : c.paint padding p.x p.y item.image = .ok c') :
    ∃ g, c'.Shows width g ∧
      (0 < p.w → 0 < p.h → ∀ col row, p.Covers padding col row → g col row = item.image.spread p.x p.y col row) ∧
      ∀ col row, (p.Covers padding col row → p.w = 0 ∨ p.h = 0) → g col row = f col row := by
  obtain ⟨hw, hh⟩ := hsize
  rw [hw, hh]
  by_cases hempty : item.image.width = 0 ∨ item.image.height = 0
  · rw [Canvas.paint, if_pos hempty] at hpaint
    cases hpaint
    exact ⟨f, hc, fun hw hh ↦ absurd hempty (by omega), fun _ _ _ ↦ rfl⟩
  · refine ⟨_, hc.paint hroom (by omega) (by omega) hpaint, fun _ _ col row hcovers ↦ ?_, fun col row hnot ↦ ?_⟩
    · obtain ⟨hcols, hrows⟩ := hcovers
      funext channel
      exact if_pos (by omega)
    · have hout := mt hnot hempty
      rw [Placement.Covers] at hout
      funext channel
      exact if_neg (by omega)

theorem Shows.placeAll {qs : List (Placement Arg × AtlasItem)} (hc : c.Shows width f)
    (hroom : ∀ q ∈ qs, HasRoom padding q.1.x q.1.y q.2.image.width q.2.image.height width height)
    (hsize : ∀ q ∈ qs, q.1.w = q.2.image.width ∧ q.1.h = q.2.image.height)
    (hapart : qs.Pairwise fun q q' ↦ ∀ col row, q.1.Covers padding col row → ¬ q'.1.Covers padding col row)
    (hpaint : qs.foldlM (fun c q ↦ c.paint padding q.1.x q.1.y q.2.image) c = .ok c') :
    ∃ g, c'.Shows width g ∧
      (∀ q ∈ qs, 0 < q.1.w → 0 < q.1.h → ∀ col row, q.1.Covers padding col row →
        g col row = q.2.image.spread q.1.x q.1.y col row) ∧
      ∀ col row, (∀ q ∈ qs, q.1.Covers padding col row → q.1.w = 0 ∨ q.1.h = 0) → g col row = f col row := by
  induction qs generalizing c f with
  | nil =>
    cases hpaint
    exact ⟨f, hc, nofun, fun _ _ _ ↦ rfl⟩
  | cons q qs ih =>
    rw [List.foldlM_cons] at hpaint
    obtain ⟨c₁, hfirst, hrest⟩ := bind_eq_ok hpaint
    rw [List.forall_mem_cons] at hroom hsize
    obtain ⟨hbefore, hapart⟩ := List.pairwise_cons.1 hapart
    obtain ⟨f₁, hc₁, hin₁, hout₁⟩ := hc.place hroom.1 hsize.1 hfirst
    obtain ⟨g, hg, hin, hout⟩ := ih hc₁ hroom.2 hsize.2 hapart hrest
    refine ⟨g, hg, List.forall_mem_cons.2 ⟨fun hw hh col row hcovers ↦ ?_, hin⟩, fun col row hnot ↦ ?_⟩
    · rw [hout col row fun q' hq' hcovers' ↦ absurd hcovers' (hbefore q' hq' col row hcovers)]
      exact hin₁ hw hh col row hcovers
    · obtain ⟨hfirst, hrest⟩ := List.forall_mem_cons.1 hnot
      rw [hout col row hrest, hout₁ col row hfirst]

end Canvas

namespace Atlas

variable {items : List AtlasItem} {padding : Nat}

/-- Each image stands in the atlas as it is, apart from the others and with its edges going on into its border, and
there is nothing else in the atlas. -/
structure Holds (a : Atlas) (items : List AtlasItem) (padding : Nat) : Prop where
  placements_eq : a.placements.map (fun p ↦ (p.transform, p.w, p.h)) =
    items.map fun item ↦ (item.transform, item.image.width, item.image.height)
  hasRoom : ∀ p ∈ a.placements, HasRoom padding p.x p.y p.w p.h a.image.width a.image.height
  apart : a.placements.Pairwise fun p p' ↦ ∀ col row, p.Covers padding col row → ¬ p'.Covers padding col row
  size_eq : a.image.data.size = a.image.width * a.image.height * 4
  sample_eq : ∀ q ∈ a.placements.zip items, 0 < q.1.w → 0 < q.1.h →
    ∀ col row channel, q.1.Covers padding col row → channel < 4 →
      sample a.image.data a.image.width col row channel = q.2.image.spread q.1.x q.1.y col row channel
  blank_eq : ∀ col row channel, col < a.image.width → row < a.image.height → channel < 4 →
    (∀ p ∈ a.placements, p.Covers padding col row → p.w = 0 ∨ p.h = 0) →
      sample a.image.data a.image.width col row channel = some 0

/-- Packing loses nothing of an image, and lets none get into another's border. -/
theorem pack_holds (items : List AtlasItem) (h : ∀ item ∈ items, item.image.isPackable) (maxWidth padding : Nat) :
    ∃ a, pack items maxWidth padding = .ok a ∧ a.Holds items padding := by
  obtain ⟨c, hpaint, hmeasures⟩ := Canvas.paintAll_ok items h maxWidth padding
  refine ⟨_, (congrArg (· >>= _) hpaint).trans (ok_bind _ _), ?_⟩
  have hroom (q : Placement Arg × AtlasItem)
      (hq : q ∈ (placeAll maxWidth padding (.start padding) items).1.zip items) :=
    hasRoom_placeAll (Layout.padded_start padding) hq
  have hsize (q : Placement Arg × AtlasItem)
      (hq : q ∈ (placeAll maxWidth padding (.start padding) items).1.zip items) :=
    size_of_mem_zip hq
  have hfst := List.map_fst_zip (length_placeAll maxWidth padding (.start padding) items).le
  have hapart := apart_placeAll maxWidth padding (.start padding) items
  obtain ⟨g, hg, hin, hout⟩ := (Canvas.shows_blank _ _).placeAll hroom hsize
    (List.pairwise_map.1 (hfst.symm ▸ hapart)) hpaint
  refine ⟨placeAll_eq _ _ _ _, fun p hp ↦ ?_, hapart, ?_, fun q hq hw hh col row channel hcovers hchannel ↦ ?_,
    fun col row channel hcol hrow hchannel hnot ↦ ?_⟩
  · rw [← hfst, List.mem_map] at hp
    obtain ⟨q, hq, rfl⟩ := hp
    obtain ⟨hw, hh⟩ := hsize q hq
    rw [hw, hh]
    exact hroom q hq
  · rw [hmeasures.size_eq]
    ring
  · obtain ⟨hw', -⟩ := hsize q hq
    have hright := (hroom q hq).right
    rw [hg.sample_eq col row channel ?_ hchannel, hin q hq hw hh col row hcovers]
    exact hcovers.1.2.trans_le (hw' ▸ hright)
  · rw [hg.sample_eq col row channel hcol hchannel, hout col row fun q hq ↦ hnot q.1 (List.of_mem_zip hq).1,
      if_pos hrow]

theorem pack_holds_pair :
    let items : List AtlasItem :=
      [⟨[.int 2, .int 0], ⟨2, 1, .rgba, ⟨#[9, 8, 7, 6, 5, 4, 3, 2]⟩, false⟩⟩, ⟨[], ⟨0, 3, .rgba, ⟨#[]⟩, false⟩⟩]
    (∀ item ∈ items, item.image.isPackable) ∧ ∃ a, pack items 3 1 = .ok a ∧ a.Holds items 1 :=
  ⟨by decide, pack_holds _ (by decide) 3 1⟩

end Atlas

end DisplayList
