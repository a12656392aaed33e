import DisplayList.Pattern

namespace DisplayList

section Numbers

open Float.Model (UnpackedFloat)

theorem eq_or_zero_of_compare {a b : UnpackedFloat} (h : a.compare b = some .eq) :
    a = b ∨ ∃ s t, a = .zero s ∧ b = .zero t := by
  have hfinite {m n : Nat} {e f : Int} (h : (compare e f).then (compare m n) = .eq) : e = f ∧ m = n := by
    rwa [Ordering.then_eq_eq, Std.compare_eq_iff_eq, Std.compare_eq_iff_eq] at h
  rcases a with (_ | _) | _ | s | ⟨_ | _, m, e, hm⟩ <;> rcases b with (_ | _) | _ | t | ⟨_ | _, n, f, hn⟩
  case finite.negative.finite.negative =>
    obtain ⟨rfl, rfl⟩ := hfinite (Ordering.swap_eq_eq.1 (Option.some.inj h))
    exact .inl rfl
  case finite.positive.finite.positive =>
    obtain ⟨rfl, rfl⟩ := hfinite (Option.some.inj h)
    exact .inl rfl
  case zero.zero => exact .inr ⟨s, t, rfl, rfl⟩
  all_goals first
    | exact .inl rfl
    | cases h

theorem compare_trans {a b c : UnpackedFloat} (hab : a.compare b = some .eq) (hbc : b.compare c = some .eq) :
    a.compare c = some .eq := by
  obtain rfl | ⟨s, t, rfl, rfl⟩ := eq_or_zero_of_compare hab
  · exact hbc
  obtain rfl | ⟨-, u, -, rfl⟩ := eq_or_zero_of_compare hbc
  · exact hab
  · rfl

theorem float_beq_trans {a b c : Float} (hab : (a == b) = true) (hbc : (b == c) = true) : (a == c) = true := by
  have h (a b : Float) : (a == b) = true ↔ a.toModel.unpack.compare b.toModel.unpack = some .eq := by
    change (a.toModel.unpack.compare b.toModel.unpack == some .eq) = true ↔ _
    exact beq_iff_eq
  rw [h] at *
  exact compare_trans hab hbc

theorem float32_beq_trans {a b c : Float32} (hab : (a == b) = true) (hbc : (b == c) = true) : (a == c) = true := by
  have h (a b : Float32) : (a == b) = true ↔ a.toModel.unpack.compare b.toModel.unpack = some .eq := by
    change (a.toModel.unpack.compare b.toModel.unpack == some .eq) = true ↔ _
    exact beq_iff_eq
  rw [h] at *
  exact compare_trans hab hbc

end Numbers

section Values

theorem option_beq_trans {a b c : Option Float} (hab : (a == b) = true) (hbc : (b == c) = true) : (a == c) = true := by
  match a, b, c with
  | none, none, none => rfl
  | none, some _, _ | some _, none, _ => cases hab
  | none, none, some _ | some _, some _, none => cases hbc
  | some _, some _, some _ => exact float_beq_trans hab hbc

theorem list_beq_trans {xs ys zs : List Float32} (hxy : (xs == ys) = true) (hyz : (ys == zs) = true) :
    (xs == zs) = true := by
  induction xs generalizing ys zs with
  | nil =>
    cases ys with
    | nil => exact hyz
    | cons y ys => cases hxy
  | cons x xs ih =>
    cases ys with
    | nil => cases hxy
    | cons y ys =>
      cases zs with
      | nil => cases hyz
      | cons z zs =>
        rw [List.cons_beq_cons, Bool.and_eq_true] at *
        exact ⟨float32_beq_trans hxy.1 hyz.1, ih hxy.2 hyz.2⟩

theorem rect_beq_trans {r s t : Rect} (hrs : (r == s) = true) (hst : (s == t) = true) : (r == t) = true := by
  have h (r s : Rect) : (r == s) = (r.x0 == s.x0 && r.y0 == s.y0 && r.x1 == s.x1 && r.y1 == s.y1) := rfl
  simp only [h, Bool.and_eq_true] at *
  grind [float_beq_trans]

theorem matrix_beq_trans {m n k : Matrix} (hmn : (m == n) = true) (hnk : (n == k) = true) : (m == k) = true := by
  have h (m n : Matrix) : (m == n) =
      (m.a == n.a && m.b == n.b && m.c == n.c && m.d == n.d && m.e == n.e && m.f == n.f) := rfl
  simp only [h, Bool.and_eq_true] at *
  grind [float_beq_trans]

theorem bytes_beq_iff {b c : ByteArray} : (b == c) = true ↔ b.data = c.data := by
  change (b.data == c.data) = true ↔ _
  exact beq_iff_eq

theorem resource_beq_iff {r s : Resource} : (r == s) = true ↔ r.image = s.image := by
  change (r.image == s.image) = true ↔ _
  exact beq_iff_eq

end Values

namespace Arg

mutual

theorem eqv_trans {a b c : Arg} (hab : a.eqv b) (hbc : b.eqv c) : a.eqv c := by
  cases a <;> cases b <;> simp only [eqv, Bool.false_eq_true] at hab <;> cases c <;>
    simp only [eqv, Bool.false_eq_true] at hbc ⊢
  case bool => simp_all
  case int => simp_all
  case number => exact float_beq_trans hab hbc
  case name => simp_all
  case bytes =>
    rw [bytes_beq_iff] at *
    exact hab.trans hbc
  case array => exact eqvAll_trans hab hbc
  case rect => exact rect_beq_trans hab hbc
  case matrix => exact matrix_beq_trans hab hbc
  case image =>
    rw [resource_beq_iff] at *
    exact hab.trans hbc
  case positions => exact list_beq_trans hab hbc
  case placements => exact eqvPlacements_trans hab hbc
  case masks => exact eqvMasks_trans hab hbc
termination_by structural a

theorem eqvAll_trans {as bs cs : List Arg} (hab : eqvAll as bs) (hbc : eqvAll bs cs) : eqvAll as cs := by
  cases as <;> cases bs <;> simp only [eqvAll, Bool.false_eq_true, Bool.and_eq_true] at hab <;> cases cs <;>
    simp only [eqvAll, Bool.false_eq_true, Bool.and_eq_true] at hbc ⊢
  exact ⟨eqv_trans hab.1 hbc.1, eqvAll_trans hab.2 hbc.2⟩
termination_by structural as

theorem eqvPlacements_trans {as bs cs : List (Placement Arg)} (hab : eqvPlacements as bs)
    (hbc : eqvPlacements bs cs) : eqvPlacements as cs := by
  rcases as with _ | ⟨⟨t, x, y, w, h⟩, as⟩ <;> rcases bs with _ | ⟨⟨t', x', y', w', h'⟩, bs⟩ <;>
    simp only [eqvPlacements, Bool.false_eq_true, Bool.and_eq_true, beq_iff_eq] at hab <;> cases cs <;>
    simp only [eqvPlacements, Bool.false_eq_true, Bool.and_eq_true, beq_iff_eq] at hbc ⊢
  obtain ⟨⟨⟨⟨⟨ht, rfl⟩, rfl⟩, rfl⟩, rfl⟩, has⟩ := hab
  obtain ⟨⟨⟨⟨⟨ht', hx⟩, hy⟩, hw⟩, hh⟩, has'⟩ := hbc
  exact ⟨⟨⟨⟨⟨eqvAll_trans ht ht', hx⟩, hy⟩, hw⟩, hh⟩, eqvPlacements_trans has has'⟩
termination_by structural as

theorem eqvMasks_trans {as bs cs : List (MaskEntry Arg)} (hab : eqvMasks as bs) (hbc : eqvMasks bs cs) :
    eqvMasks as cs := by
  rcases as with _ | ⟨⟨m, t⟩, as⟩ <;> rcases bs with _ | ⟨⟨m', t'⟩, bs⟩ <;>
    simp only [eqvMasks, Bool.false_eq_true, Bool.and_eq_true, resource_beq_iff] at hab <;> cases cs <;>
    simp only [eqvMasks, Bool.false_eq_true, Bool.and_eq_true, resource_beq_iff] at hbc ⊢
  obtain ⟨⟨hm, ht⟩, has⟩ := hab
  obtain ⟨⟨hm', ht'⟩, has'⟩ := hbc
  exact ⟨⟨hm.trans hm', eqvAll_trans ht ht'⟩, eqvMasks_trans has has'⟩
termination_by structural as

end

theorem resource_sharesWith_trans {r s t : Resource} (hrs : r.sharesWith s) (hst : s.sharesWith t) :
    r.sharesWith t := by
  simp only [Resource.sharesWith] at *
  grind

theorem sharesWith_eq_eqv {a b : Arg} (ha : ∀ r, a ≠ image r) (hb : ∀ r, b ≠ image r) : a.sharesWith b = a.eqv b :=
  sharesWith.eq_4 a b ha hb fun r _ hr _ ↦ ha r hr

theorem sharesWith_cases {a b : Arg} (h : a.sharesWith b) :
    (∃ r s, a = image r ∧ b = image s ∧ r.sharesWith s) ∨ ((∀ r, a ≠ image r) ∧ (∀ r, b ≠ image r) ∧ a.eqv b) := by
  revert h
  fun_cases sharesWith a b with
  | case1 r s => exact fun h ↦ .inl ⟨r, s, rfl, rfl, h⟩
  | case2 | case3 => nofun
  | case4 a b _ ha hb => exact fun h ↦ .inr ⟨ha, hb, h⟩

theorem sharesWith_trans {a b c : Arg} (hab : a.sharesWith b) (hbc : b.sharesWith c) : a.sharesWith c := by
  obtain ⟨r, s, rfl, rfl, hrs⟩ | ⟨ha, hb, hab⟩ := sharesWith_cases hab
  · obtain ⟨s', t, hs, rfl, hst⟩ | ⟨hs, -⟩ := sharesWith_cases hbc
    · cases hs
      exact resource_sharesWith_trans hrs hst
    · exact absurd rfl (hs s)
  · obtain ⟨s, t, rfl, -⟩ | ⟨-, hc, hbc⟩ := sharesWith_cases hbc
    · exact absurd rfl (hb s)
    · rw [sharesWith_eq_eqv ha hc]
      exact eqv_trans hab hbc

theorem sharesWithAll_trans {as bs cs : List Arg} (hab : sharesWithAll as bs) (hbc : sharesWithAll bs cs) :
    sharesWithAll as cs := by
  induction as generalizing bs cs with
  | nil =>
    cases bs with
    | nil => exact hbc
    | cons b bs => cases hab
  | cons a as ih =>
    cases bs with
    | nil => cases hab
    | cons b bs =>
      cases cs with
      | nil => cases hbc
      | cons c cs =>
        rw [sharesWithAll, Bool.and_eq_true] at *
        exact ⟨sharesWith_trans hab.1 hbc.1, ih hab.2 hbc.2⟩

end Arg

theorem sameScale_trans {s t u : List Arg} (hst : sameScale s t) (htu : sameScale t u) : sameScale s u := by
  simp only [sameScale, Bool.and_eq_true] at *
  obtain ⟨⟨⟨-, hs⟩, hx⟩, hy⟩ := hst
  obtain ⟨⟨⟨hu, -⟩, hx'⟩, hy'⟩ := htu
  exact ⟨⟨⟨hu, hs⟩, option_beq_trans hx' hx⟩, option_beq_trans hy' hy⟩

theorem sameSubject_trans {s t u : List Arg} (hst : sameSubject s t) (htu : sameSubject t u) : sameSubject s u := by
  simp only [sameSubject] at *
  cases hs : s.head? <;> cases ht : t.head? <;> cases hu : u.head? <;> simp only [hs, ht, hu, Bool.false_eq_true] at *
  exact Arg.sharesWith_trans htu hst

end DisplayList
