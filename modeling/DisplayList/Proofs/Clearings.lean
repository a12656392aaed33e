import DisplayList.Proofs.Fates

namespace DisplayList

section Lists

variable {α β : Type} {f : α → List β} {c : Nat}

theorem getElem?_flatMap (hf : ∀ a, (f a).length = c) (as : List α) (k : Nat) {o : Nat} (ho : o < c) :
    (as.flatMap f)[c * k + o]? = as[k]?.bind fun a ↦ (f a)[o]? := by
  induction as generalizing k with
  | nil => rfl
  | cons a as ih =>
    rw [List.flatMap_cons]
    cases k with
    | zero =>
      rw [Nat.mul_zero, Nat.zero_add, List.getElem?_append_left (by rwa [hf])]
      rfl
    | succ k =>
      rw [List.getElem?_append_right (by rw [hf, Nat.mul_succ]; omega), hf, List.getElem?_cons_succ, ← ih]
      congr 1
      rw [Nat.mul_succ]
      omega

theorem length_flatMap_const (hf : ∀ a, (f a).length = c) (as : List α) : (as.flatMap f).length = c * as.length := by
  induction as with
  | nil => rfl
  | cons a as ih => rw [List.flatMap_cons, List.length_append, hf, ih, List.length_cons, Nat.mul_succ, Nat.add_comm]

theorem getElem?_middle (pre post : List β) {mid : List β} {k : Nat} (hk : k < mid.length) :
    (pre ++ mid ++ post)[pre.length + k]? = mid[k]? := by
  rw [List.append_assoc, List.getElem?_append_right (Nat.le_add_right _ _), Nat.add_sub_cancel_left,
    List.getElem?_append_left hk]

end Lists

namespace Pattern

variable {p p' : Pattern} {q : List Instruction} {first start stop n i j k : Nat}

section Groups

theorem groupAt_of_tags (h : ∀ i, first ≤ i → i < stop → p.TagFits q first i)
    (hk : first + p.period * (k + 1) ≤ stop) : p.GroupAt q (first + p.period * k) := by
  rw [Nat.mul_succ] at hk
  exact groupAt_iff_tagFits.2 fun j hj hj' ↦ tagFits_shift h k j hj (by omega)

theorem exists_of_groupAt (h : ∀ i, first ≤ i → i < stop → p.TagFits q first i) (hn : first + p.period * n ≤ stop)
    (hg : p'.GroupAt q i) (hi : first ≤ i) (hin : i < first + p.period * n) :
    p' = p ∧ ∃ k < n, i = first + p.period * k := by
  have hdiv := Nat.div_add_mod (i - first) p.period
  have hmod := Nat.mod_lt (i - first) p.period_pos
  have hk : (i - first) / p.period < n := Nat.div_lt_of_lt_mul (by omega)
  have hle : p.period * ((i - first) / p.period + 1) ≤ p.period * n := Nat.mul_le_mul_left p.period hk
  have hgroup : p.GroupAt q (first + p.period * ((i - first) / p.period)) := groupAt_of_tags h (by omega)
  obtain ⟨heq, hp⟩ := hgroup.eq_of_lt hg (by omega) (by omega)
  exact ⟨hp.symm, _, hk, heq.symm⟩

end Groups

section Clearings

/-- No group of any pattern reaches into what stands from `start` to `stop`. -/
def Clear (q : List Instruction) (start stop : Nat) : Prop :=
  ∀ (p : Pattern) (i : Nat), i < stop → start < i + p.period → ¬ p.GroupAt q i

theorem Clear.append {mid : Nat} (h : Clear q start mid) (h' : Clear q mid stop) : Clear q start stop := by
  intro p i hi hstart hgroup
  obtain hlt | hge := Nat.lt_or_ge i mid
  · exact h p i hlt hstart hgroup
  · have := p.period_pos
    exact h' p i hi (by omega) hgroup

theorem begins_of_group {tag : Tag} (h : p.group[0]? = some tag) : begins tag := by
  rw [begins, List.any_eq_true]
  exact ⟨p, mem_all p, by rw [List.head?_eq_getElem?]; exact decide_eq_true h⟩

theorem clear_of_not_begins (hfirst : ∀ (p : Pattern) (i : Nat), i ≤ start → start < i + p.period → ¬ p.GroupAt q i)
    (hrest : ∀ i, start < i → i < stop → ∃ tag, q[i]?.map (·.tag) = some tag ∧ ¬ begins tag) : Clear q start stop := by
  intro p i hi hstart hgroup
  obtain hlt | hge := Nat.lt_or_ge start i
  · obtain ⟨tag, htag, hno⟩ := hrest i hlt hi
    have hbegin := hgroup 0 p.period_pos
    rw [Nat.add_zero, htag] at hbegin
    exact hno (begins_of_group hbegin.symm)
  · exact hfirst p i hge hstart hgroup

theorem tag_mem_group (h : p.GroupAt q i) (hij : i ≤ j) (hj : j < i + p.period) {tag : Tag}
    (ht : q[j]?.map (·.tag) = some tag) : tag ∈ p.group := by
  have hk := h (j - i) (by omega)
  rw [Nat.add_sub_cancel' hij, ht] at hk
  exact List.mem_of_getElem? hk.symm

theorem clear_of_alien {tag : Tag} (halien : ∀ p : Pattern, tag ∉ p.group) (ht : q[start]?.map (·.tag) = some tag) :
    Clear q start (start + 1) :=
  clear_of_not_begins (fun p _ hi hstart hgroup ↦ halien p (tag_mem_group hgroup hi hstart ht))
    fun _ hi hi' ↦ absurd hi (by omega)

theorem stop_le_of_clear (hclear : Clear q start stop) (hstart : start < stop) (hi : i < stop) (hn : 0 < n)
    (h : ∀ j, i ≤ j → j < i + p.period * n → p.TagFits q i j) : i + p.period * n ≤ start := by
  by_contra hlt
  have hpos := Nat.mul_pos p.period_pos hn
  have hdiv := Nat.div_add_mod (start - i) p.period
  have hmod := Nat.mod_lt (start - i) p.period_pos
  have hk : (start - i) / p.period < n := Nat.div_lt_of_lt_mul (by omega)
  have hle : p.period * ((start - i) / p.period + 1) ≤ p.period * n := Nat.mul_le_mul_left p.period hk
  have hgroup : p.GroupAt q (i + p.period * ((start - i) / p.period)) := groupAt_of_tags h (by omega)
  rw [Nat.mul_succ] at hle
  exact hclear p _ (by omega) (by omega) hgroup

theorem getElem?_form (rest : List Instruction) {form : List Instruction} (hq : start ≤ q.length)
    (hk : k < form.length) : (q.take start ++ form ++ rest)[start + k]? = form[k]? := by
  have hat := getElem?_middle (q.take start) rest hk
  rwa [List.length_take_of_le hq] at hat

theorem getElem?_before {form rest : List Instruction} (hq : start ≤ q.length) (hi : i < start) :
    (q.take start ++ form ++ rest)[i]? = q[i]? := by
  rw [List.append_assoc, List.getElem?_append_left (by rw [List.length_take]; omega), List.getElem?_take_of_lt hi]

theorem clear_batched {tag : Tag} {args : List Arg} {rest : List Instruction} (hq : first ≤ q.length)
    (halien : ∀ p : Pattern, tag ∉ p.group) :
    Clear (q.take first ++ [⟨tag, args⟩] ++ rest) first (first + 1) := by
  have hat := getElem?_form rest hq (show 0 < [(⟨tag, args⟩ : Instruction)].length from Nat.zero_lt_one)
  refine clear_of_alien halien ?_
  rw [Nat.add_zero] at hat
  rw [hat]
  rfl

theorem tag_retagged (hq : first + 4 * n ≤ q.length) (hk : k < n) {o : Nat} (ho : o < 4) :
    (retagged q first n)[first + 4 * k + o]?.map (·.tag) = (quartet .paintSolidMask)[o]? := by
  have hlength : ((quartets q first n).flatMap (Quartet.instructions .paintSolidMask)).length = 4 * n := by
    rw [length_instructions, length_quartets]
  have hquartet : (quartets q first n)[k]? = some (Quartet.ofIndex q (first + 4 * k)) := by
    rw [quartets, List.getElem?_map, List.getElem?_range hk]
    rfl
  have hfour (g : Quartet) : (g.instructions .paintSolidMask).length = 4 := rfl
  rw [retagged, Nat.add_assoc, getElem?_form _ (by omega) (by omega), getElem?_flatMap hfour _ k ho, hquartet,
    Option.bind_some, ← List.getElem?_map]
  rfl

theorem clear_retagged (hq : first + 4 * n ≤ q.length) (hn : 0 < n) :
    Clear (retagged q first n) first (first + 4 * n) := by
  have hone (k : Nat) (hk : k < n) : Clear (retagged q first n) (first + 4 * k) (first + 4 * k + 4) := by
    refine clear_of_not_begins (fun p i hi hstart hgroup ↦ ?_) fun i hi hi' ↦ ?_
    · have hbegin : (retagged q first n)[first + 4 * k]?.map (·.tag) = images.group[0]? :=
        tag_retagged hq hk (show 0 < 4 by omega)
      obtain rfl := hgroup.eq_of_begins hi hstart hbegin
      have hfour := p.four_le_period
      exact not_mem_group (by simp) p
        (tag_mem_group hgroup (Nat.le_add_right _ 2) (by omega) (tag_retagged hq hk (show 2 < 4 by omega)))
    · obtain ⟨o, rfl⟩ := Nat.exists_eq_add_of_lt hi
      have htag := tag_retagged hq hk (show o + 1 < 4 by omega)
      obtain rfl | rfl | rfl : o = 0 ∨ o = 1 ∨ o = 2 := by omega
      all_goals exact ⟨_, htag, by decide⟩
  have hall (k : Nat) (hk : k < n) : Clear (retagged q first n) first (first + 4 * (k + 1)) := by
    induction k with
    | zero => exact hone 0 hk
    | succ k ih => exact (ih (by omega)).append (hone (k + 1) hk)
  obtain ⟨k, rfl⟩ := Nat.exists_eq_add_one.2 hn
  exact hall k (Nat.lt_succ_self k)

theorem tag_mem_textEnd {w : Wrapper} {ws : List Wrapper} {i : Instruction} (hi : i ∈ (w.merged ws).tail) :
    i.tag ∈ textEnd := by
  simp only [Wrapper.merged, Wrapper.opening, Wrapper.body, Wrapper.closing, List.cons_append, List.tail_cons,
    List.nil_append, List.mem_cons, List.mem_append, List.mem_flatMap, List.not_mem_nil, or_false] at hi
  obtain rfl | ⟨-, -, rfl | rfl⟩ | rfl := hi
  all_goals simp [textEnd]

theorem not_begins_of_mem_textEnd {tag : Tag} (h : tag ∈ textEnd) : ¬ begins tag := by
  have hall : ∀ tag ∈ textEnd, ¬ begins tag := by decide
  exact hall tag h

theorem not_groupAt_of_second (h : q[i + 4]?.map (·.tag) = some .setTextMatrix) : ¬ glyphRuns.GroupAt q i := by
  intro hgroup
  have hlast := hgroup 4 (by decide)
  rw [h] at hlast
  revert hlast
  decide

theorem tag_second (w v : Wrapper) (ws : List Wrapper) :
    (w.merged (v :: ws))[4]?.map (·.tag) = some .setTextMatrix := by
  simp [Wrapper.merged, Wrapper.opening, Wrapper.body]

theorem clear_text {form rest : List Instruction} (hq : start ≤ q.length) (htext : ∀ i ∈ form.tail, i.tag ∈ textEnd)
    (hfirst : ∀ (p : Pattern) (i : Nat), i ≤ start → start < i + p.period →
      ¬ p.GroupAt (q.take start ++ form ++ rest) i) :
    Clear (q.take start ++ form ++ rest) start (start + form.length) := by
  refine clear_of_not_begins hfirst fun i hi hi' ↦ ?_
  obtain ⟨k, rfl⟩ := Nat.exists_eq_add_of_lt hi
  have hk : k < form.tail.length := by
    rw [List.length_tail]
    omega
  refine ⟨_, ?_, not_begins_of_mem_textEnd (htext _ (List.getElem_mem hk))⟩
  rw [Nat.add_assoc, getElem?_form rest hq (by omega), ← List.getElem?_tail, List.getElem?_eq_getElem hk]
  rfl

variable (w v : Wrapper) (ws : List Wrapper) (rest : List Instruction)

theorem length_merged_cons : (w.merged (v :: ws)).length = 2 * ws.length + 7 := by
  rw [Wrapper.length_merged, List.length_cons]
  omega

theorem clear_merged (hq : first ≤ q.length) :
    Clear (q.take first ++ w.merged (v :: ws) ++ rest) first (first + (w.merged (v :: ws)).length) := by
  have hat {k : Nat} (hk : k < (w.merged (v :: ws)).length) := getElem?_form rest hq hk
  have hlength := length_merged_cons w v ws
  refine clear_text hq (fun i hi ↦ tag_mem_textEnd hi) fun p i hi hstart hgroup ↦ ?_
  have hbegin : (q.take first ++ w.merged (v :: ws) ++ rest)[first]?.map (·.tag) = glyphRuns.group[0]? := by
    have := hat (show 0 < _ by omega)
    rw [Nat.add_zero] at this
    rw [this]
    rfl
  obtain rfl := hgroup.eq_of_begins hi hstart hbegin
  have hwrapper : p = glyphRuns := by
    have hzero := hgroup 0 p.period_pos
    rw [Nat.add_zero, hbegin] at hzero
    have hall : ∀ p ∈ all, glyphRuns.group[0]? = p.group[0]? → p = glyphRuns := by decide
    exact hall p (mem_all p) hzero
  rw [hwrapper] at hgroup
  exact not_groupAt_of_second (by rw [hat (show 4 < _ by omega), tag_second]) hgroup

theorem clear_joined (hq : start ≤ q.length) :
    Clear (q.take start ++ (w.merged (v :: ws)).tail ++ rest) start (start + (w.merged (v :: ws)).tail.length) := by
  have hat {k : Nat} (hk : k < (w.merged (v :: ws)).tail.length) := getElem?_form rest hq hk
  have hlength : (w.merged (v :: ws)).tail.length = 2 * ws.length + 6 := by
    rw [List.length_tail, length_merged_cons]
    omega
  refine clear_text hq (fun i hi ↦ tag_mem_textEnd (List.mem_of_mem_tail hi)) fun p i hi hstart hgroup ↦ ?_
  have hfont : (q.take start ++ (w.merged (v :: ws)).tail ++ rest)[start]?.map (·.tag) = some .setFont := by
    have := hat (show 0 < _ by omega)
    rw [Nat.add_zero] at this
    rw [this]
    rfl
  have hwrapper : p = glyphRuns ∧ start - i = 1 := by
    have hk := hgroup (start - i) (by omega)
    rw [Nat.add_sub_cancel' hi, hfont] at hk
    have hall : ∀ p ∈ all, ∀ k < p.period, some .setFont = p.group[k]? → p = glyphRuns ∧ k = 1 := by decide
    exact hall p (mem_all p) _ (by omega) hk
  obtain ⟨rfl, hone⟩ := hwrapper
  refine not_groupAt_of_second ?_ hgroup
  rw [show i + 4 = start + 3 by omega, hat (show 3 < _ by omega), List.getElem?_tail, tag_second]

theorem clear_wrappers (hq : first ≤ q.length) (hn : 0 < n) :
    Clear (q.take first ++ (Wrapper.ofIndex q first).merged (wrappers q (first + 5) n) ++ rest) first
      (first + (2 * n + 5)) := by
  obtain ⟨n, rfl⟩ := Nat.exists_eq_add_one.2 hn
  have hclear := clear_merged (Wrapper.ofIndex q first) (Wrapper.ofIndex q (first + 5)) (wrappers q (first + 5 + 5) n)
    rest hq
  rwa [← wrappers_succ, Wrapper.length_merged, length_wrappers] at hclear

theorem clear_textBefore (hq : first - 4 ≤ q.length) :
    Clear (q.take (first - 4) ++ ((textBefore q first).merged (wrappers q first (n + 1))).tail ++ rest) (first - 4)
      (first - 4 + (2 * n + 6)) := by
  have hclear := clear_joined (textBefore q first) (Wrapper.ofIndex q first) (wrappers q (first + 5) n) rest hq
  rwa [← wrappers_succ, List.length_tail, Wrapper.length_merged, length_wrappers] at hclear

end Clearings

end Pattern

end DisplayList
