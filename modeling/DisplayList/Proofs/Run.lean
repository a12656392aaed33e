import DisplayList.Batching
import DisplayList.Proofs.Queue

namespace DisplayList

/-- Four instructions that paint something under a transform of its own, by their arguments. -/
structure Quartet where
  save : List Arg
  transform : List Arg
  paint : List Arg
  restore : List Arg

def Quartet.instructions (tag : Tag) (g : Quartet) : List Instruction :=
  [⟨.save, g.save⟩, ⟨.transform, g.transform⟩, ⟨tag, g.paint⟩, ⟨.restore, g.restore⟩]

/-- Five instructions that show a piece of text in a font, by their arguments. -/
structure Wrapper where
  start : List Arg
  font : List Arg
  matrix : List Arg
  shown : List Arg
  stop : List Arg

namespace Wrapper

def opening (w : Wrapper) : List Instruction := [⟨.beginText, w.start⟩, ⟨.setFont, w.font⟩]

def body (w : Wrapper) : List Instruction := [⟨.setTextMatrix, w.matrix⟩, ⟨.showText, w.shown⟩]

def closing (w : Wrapper) : List Instruction := [⟨.endText, w.stop⟩]

def instructions (w : Wrapper) : List Instruction := w.opening ++ w.body ++ w.closing

end Wrapper

def argsOf (q : List Instruction) (i : Nat) : List Arg := (q[i]?.map (·.args)).getD []

def stretch (q : List Instruction) (start stop : Nat) : List Instruction := (q.drop start).take (stop - start)

def Quartet.ofIndex (q : List Instruction) (i : Nat) : Quartet :=
  ⟨argsOf q i, argsOf q (i + 1), argsOf q (i + 2), argsOf q (i + 3)⟩

def Wrapper.ofIndex (q : List Instruction) (i : Nat) : Wrapper :=
  ⟨argsOf q i, argsOf q (i + 1), argsOf q (i + 2), argsOf q (i + 3), argsOf q (i + 4)⟩

def quartets (q : List Instruction) (first n : Nat) : List Quartet :=
  (List.range n).map fun k ↦ Quartet.ofIndex q (first + 4 * k)

def wrappers (q : List Instruction) (first n : Nat) : List Wrapper :=
  (List.range n).map fun k ↦ Wrapper.ofIndex q (first + 5 * k)

section Lists

variable {q r : List Instruction} {i j k n : Nat} {tag : Tag}

theorem argsOf_append (h : i < q.length) : argsOf (q ++ r) i = argsOf q i := by
  rw [argsOf, argsOf, List.getElem?_append_left h]

theorem drop_eq_cons (h : q[i]?.map (·.tag) = some tag) : q.drop i = ⟨tag, argsOf q i⟩ :: q.drop (i + 1) := by
  obtain ⟨a, ha, rfl⟩ := Option.map_eq_some_iff.1 h
  obtain ⟨hi, rfl⟩ := List.getElem?_eq_some_iff.1 ha
  rw [List.drop_eq_getElem_cons hi, argsOf, ha]
  rfl

theorem argsAt_eq (h : i < q.length) : (Columns.ofList q).argsAt i = .ok (argsOf q i) := by
  have hi := List.getElem?_eq_getElem h
  rw [Columns.argsAt_ofList hi, argsOf, hi]
  rfl

theorem argsEvery_eq {start step : Nat} (h : ∀ k < n, start + step * k < q.length) :
    (Columns.ofList q).argsEvery start step n = .ok ((List.range n).map fun k ↦ argsOf q (start + step * k)) :=
  mapM_ok fun k hk ↦ argsAt_eq (h k (List.mem_range.1 hk))

theorem stretch_append_drop (h : i ≤ j) : stretch q i j ++ q.drop j = q.drop i := by
  have hj : q.drop j = (q.drop i).drop (j - i) := by rw [List.drop_drop, Nat.add_sub_cancel' h]
  rw [stretch, hj, List.take_append_drop]

theorem take_append_stretch (h : i ≤ j) : q.take i ++ stretch q i j = q.take j := by
  rw [stretch, ← Nat.add_sub_cancel' h, Nat.add_sub_cancel_left, List.take_add]

theorem stretch_append_stretch (hij : i ≤ j) (hjk : j ≤ k) : stretch q i j ++ stretch q j k = stretch q i k := by
  have hk : k - i = j - i + (k - j) := by omega
  have hj : (q.drop i).drop (j - i) = q.drop j := by rw [List.drop_drop, Nat.add_sub_cancel' hij]
  rw [stretch, stretch, stretch, hk, List.take_add, hj]

theorem length_stretch (h : j ≤ q.length) : (stretch q i j).length = j - i := by
  rw [stretch, List.length_take, List.length_drop]
  omega

@[simp]
theorem length_quartets (q : List Instruction) (i n : Nat) : (quartets q i n).length = n := by simp [quartets]

@[simp]
theorem length_wrappers (q : List Instruction) (i n : Nat) : (wrappers q i n).length = n := by simp [wrappers]

theorem quartets_add (q : List Instruction) (i m n : Nat) :
    quartets q i (m + n) = quartets q i m ++ quartets q (i + 4 * m) n := by
  simp [quartets, List.range_add, Function.comp_def, Nat.mul_add, Nat.add_assoc]

theorem wrappers_add (q : List Instruction) (i m n : Nat) :
    wrappers q i (m + n) = wrappers q i m ++ wrappers q (i + 5 * m) n := by
  simp [wrappers, List.range_add, Function.comp_def, Nat.mul_add, Nat.add_assoc]

theorem take_quartets (q : List Instruction) (i : Nat) {m n : Nat} (h : m ≤ n) :
    (quartets q i n).take m = quartets q i m := by
  rw [← Nat.add_sub_cancel' h, quartets_add]
  exact List.take_left' (length_quartets q i m)

end Lists

namespace Pattern

def agrees (p : Pattern) (q : List Instruction) (first i : Nat) : Bool :=
  match p, (i - first) % p.period with
  | inlineImages, 2 => paintsPackable (argsOf q i)
  | images, 1 => sameScale (argsOf q (first + 1)) (argsOf q i)
  | images, 2 => sameSubject (argsOf q (first + 2)) (argsOf q i)
  | glyphRuns, 1 => Arg.sharesWithAll (argsOf q (first + 1)) (argsOf q i)
  | _, _ => true

def opens (p : Pattern) (q : List Instruction) (first : Nat) : Bool :=
  match p with
  | inlineImages => paintsPackable (argsOf q (first + 2))
  | images => isUpright (argsOf q (first + 1))
  | imageMasks | glyphRuns => true

def TagFits (p : Pattern) (q : List Instruction) (first i : Nat) : Prop :=
  q[i]?.map (·.tag) = p.group[(i - first) % p.period]?

instance (p : Pattern) (q : List Instruction) (first i : Nat) : Decidable (p.TagFits q first i) :=
  inferInstanceAs (Decidable (_ = _))

/-- From `first` to `stop` there is a run of `p`: at least one group, and perhaps a part of one at the end. -/
structure IsRun (p : Pattern) (q : List Instruction) (first stop : Nat) : Prop where
  whole : first + p.period ≤ stop
  within : stop ≤ q.length
  tags : ∀ i, first ≤ i → i < stop → p.TagFits q first i
  opens : p.opens q first
  agrees : ∀ i, first + p.period ≤ i → i < stop → p.agrees q first i

variable {p : Pattern} {q r : List Instruction} {first stop i : Nat}

theorem period_pos (p : Pattern) : 0 < p.period := by cases p <;> decide

theorem four_le_period (p : Pattern) : 4 ≤ p.period := by cases p <;> decide

theorem admits_eq (h : first + p.period ≤ q.length) : p.admits (Columns.ofList q) first = .ok (p.opens q first) := by
  have hp := p.four_le_period
  cases p with
  | inlineImages => rw [admits, argsAt_eq (by omega)]; rfl
  | images => rw [admits, argsAt_eq (by omega)]; rfl
  | imageMasks | glyphRuns => rfl

theorem fits_eq (h : first + p.period ≤ q.length) (hi : i < q.length) :
    p.fits (Columns.ofList q) first i ((i - first) % p.period) = .ok (p.agrees q first i) := by
  have hp := p.four_le_period
  have h₀ := argsAt_eq hi
  have h₁ := argsAt_eq (show first + 1 < q.length by omega)
  have h₂ := argsAt_eq (show first + 2 < q.length by omega)
  unfold fits agrees
  generalize (i - first) % p.period = offset
  cases p <;> rcases offset with _ | _ | _ | offset <;> simp [h₀, h₁, h₂]

theorem continues_eq (h : p.IsRun q first i) (hi : i < q.length) :
    p.continues (Columns.ofList q) first i = .ok (decide (p.TagFits q first i) && p.agrees q first i) := by
  have hle : first ≤ i := (Nat.le_add_right _ _).trans h.whole
  have hat := List.getElem?_eq_getElem hi
  have hiff : p.TagFits q first i ↔ p.group[(i - first) % p.period]? = some q[i].tag := by
    rw [TagFits, hat, Option.map_some, eq_comm]
  rw [continues, distance_ok hle, ok_bind, Columns.tagAt_ofList hat, ok_bind,
    fits_eq (h.whole.trans h.within) hi]
  by_cases ht : p.TagFits q first i
  · rw [if_pos (hiff.1 ht), decide_eq_true ht, Bool.true_and]
  · rw [if_neg (mt hiff.2 ht), decide_eq_false ht, Bool.false_and, pure_eq_ok]

namespace IsRun

theorem extend (h : p.IsRun q first i) (hi : i < q.length) (ht : p.TagFits q first i) (ha : p.agrees q first i) :
    p.IsRun q first (i + 1) where
  whole := h.whole.trans (Nat.le_succ _)
  within := hi
  tags j hj hji := by
    obtain hji | rfl := Nat.lt_succ_iff_lt_or_eq.1 hji
    · exact h.tags j hj hji
    · exact ht
  opens := h.opens
  agrees j hj hji := by
    obtain hji | rfl := Nat.lt_succ_iff_lt_or_eq.1 hji
    · exact h.agrees j hj hji
    · exact ha

theorem append (h : p.IsRun q first stop) (r : List Instruction) : p.IsRun (q ++ r) first stop := by
  have hp := p.four_le_period
  have hw := h.whole
  have hq := h.within
  refine ⟨hw, ?_, fun i hi his ↦ ?_, ?_, fun i hi his ↦ ?_⟩
  · rw [List.length_append]; omega
  · rw [TagFits, List.getElem?_append_left (by omega)]
    exact h.tags i hi his
  · have ho := h.opens
    unfold Pattern.opens at ho ⊢
    rwa [argsOf_append (by omega), argsOf_append (by omega)]
  · have ha := h.agrees i hi his
    unfold Pattern.agrees at ha ⊢
    rwa [argsOf_append (by omega), argsOf_append (by omega), argsOf_append (by omega)]

end IsRun

end Pattern

section Groups

variable {q r : List Instruction} {p : Pattern} {first stop i n k : Nat} {tag : Tag}

theorem tagFits_shift (h : ∀ i, first ≤ i → i < stop → p.TagFits q first i) (k : Nat) :
    ∀ i, first + p.period * k ≤ i → i < stop → p.TagFits q (first + p.period * k) i := by
  intro i hi his
  have hm : (i - (first + p.period * k)) % p.period = (i - first) % p.period := by
    conv_rhs => rw [← Nat.sub_add_cancel (show p.period * k ≤ i - first by omega), Nat.sub_sub,
      Nat.add_mul_mod_self_left]
  rw [Pattern.TagFits, hm]
  exact h i (by omega) his

theorem drop_eq_quartet (hp : p.group = Pattern.quartet tag)
    (h : ∀ j, i ≤ j → j < i + 4 → p.TagFits q i j) :
    q.drop i = (Quartet.ofIndex q i).instructions tag ++ q.drop (i + 4) := by
  have ht (j : Nat) (hj : j < 4) : q[i + j]?.map (·.tag) = (Pattern.quartet tag)[j]? := by
    have := h (i + j) (by omega) (by omega)
    rwa [Pattern.TagFits, Pattern.period, hp, Nat.add_sub_cancel_left,
      Nat.mod_eq_of_lt (by simpa [Pattern.quartet] using hj)] at this
  have h₀ : q.drop i = ⟨.save, argsOf q i⟩ :: q.drop (i + 1) := drop_eq_cons (ht 0 (by omega))
  rw [h₀, drop_eq_cons (ht 1 (by omega)), drop_eq_cons (ht 2 (by omega)), drop_eq_cons (ht 3 (by omega))]
  rfl

theorem drop_eq_wrapper (h : ∀ j, i ≤ j → j < i + 5 → Pattern.glyphRuns.TagFits q i j) :
    q.drop i = (Wrapper.ofIndex q i).instructions ++ q.drop (i + 5) := by
  have ht (j : Nat) (hj : j < 5) : q[i + j]?.map (·.tag) = Pattern.glyphRuns.group[j]? := by
    have := h (i + j) (by omega) (by omega)
    rwa [Pattern.TagFits, Nat.add_sub_cancel_left, Nat.mod_eq_of_lt (show j < Pattern.glyphRuns.period from hj)] at this
  have h₀ : q.drop i = ⟨.beginText, argsOf q i⟩ :: q.drop (i + 1) := drop_eq_cons (ht 0 (by omega))
  rw [h₀, drop_eq_cons (ht 1 (by omega)), drop_eq_cons (ht 2 (by omega)), drop_eq_cons (ht 3 (by omega)),
    drop_eq_cons (ht 4 (by omega))]
  rfl

theorem stretch_eq_quartets (hp : p.group = Pattern.quartet tag)
    (h : ∀ i, first ≤ i → i < stop → p.TagFits q first i) (hn : first + 4 * n ≤ stop) :
    stretch q first (first + 4 * n) = (quartets q first n).flatMap (Quartet.instructions tag) := by
  have hperiod : p.period = 4 := by rw [Pattern.period, hp]; rfl
  induction n with
  | zero => simp [stretch, quartets]
  | succ n ih =>
    have hlast : stretch q (first + 4 * n) (first + 4 * (n + 1)) =
        (Quartet.ofIndex q (first + 4 * n)).instructions tag := by
      have hshift := tagFits_shift h n
      rw [hperiod] at hshift
      rw [stretch, drop_eq_quartet hp fun j hj hj' ↦ hshift j hj (by omega)]
      exact List.take_left' (by simp only [Quartet.instructions, List.length_cons, List.length_nil]; omega)
    rw [← stretch_append_stretch (show first ≤ first + 4 * n by omega) (by omega), ih (by omega), hlast,
      quartets_add, List.flatMap_append]
    simp [quartets]

theorem stretch_eq_wrappers (h : ∀ i, first ≤ i → i < stop → Pattern.glyphRuns.TagFits q first i)
    (hn : first + 5 * n ≤ stop) :
    stretch q first (first + 5 * n) = (wrappers q first n).flatMap Wrapper.instructions := by
  induction n with
  | zero => simp [stretch, wrappers]
  | succ n ih =>
    have hlast : stretch q (first + 5 * n) (first + 5 * (n + 1)) =
        (Wrapper.ofIndex q (first + 5 * n)).instructions := by
      have hshift := tagFits_shift h n
      rw [show Pattern.glyphRuns.period = 5 from rfl] at hshift
      rw [stretch, drop_eq_wrapper fun j hj hj' ↦ hshift j hj (by omega)]
      exact List.take_left' (by
        simp only [Wrapper.instructions, Wrapper.opening, Wrapper.body, Wrapper.closing, List.length_append,
          List.length_cons, List.length_nil]
        omega)
    rw [← stretch_append_stretch (show first ≤ first + 5 * n by omega) (by omega), ih (by omega), hlast,
      wrappers_add, List.flatMap_append]
    simp [wrappers]

end Groups

end DisplayList
