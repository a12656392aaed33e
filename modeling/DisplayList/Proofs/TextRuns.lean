import DisplayList.Proofs.Batching

namespace DisplayList

open Columns (ofList)

namespace Wrapper

def joints : Wrapper → List Wrapper → List Instruction
  | _, [] => []
  | w, v :: ws => w.closing ++ v.opening ++ v.body ++ joints v ws

def joined (offset : Nat) : Bool := 3 ≤ offset % 5

theorem length_joints (w : Wrapper) (ws : List Wrapper) : (w.joints ws).length = 5 * ws.length := by
  induction ws generalizing w with
  | nil => rfl
  | cons v ws ih =>
    rw [joints, List.length_append, ih, List.length_cons]
    simp only [closing, opening, body, List.length_append, List.length_cons, List.length_nil]
    omega

theorem length_bodies (ws : List Wrapper) : (ws.flatMap body).length = 2 * ws.length := by
  induction ws with
  | nil => rfl
  | cons w ws ih =>
    rw [List.flatMap_cons, List.length_append, ih, List.length_cons]
    simp only [body, List.length_cons, List.length_nil]
    omega

theorem length_merged (w : Wrapper) (ws : List Wrapper) : (w.merged ws).length = 2 * ws.length + 5 := by
  rw [merged, List.length_append, List.length_append, length_bodies, List.length_cons]
  simp only [opening, closing, List.length_cons, List.length_nil]
  omega

theorem flatMap_instructions (w : Wrapper) (ws : List Wrapper) :
    (w :: ws).flatMap instructions = w.opening ++ w.body ++ w.joints ws ++ (ws.getLastD w).closing := by
  induction ws generalizing w with
  | nil => simp [instructions, joints]
  | cons v ws ih =>
    rw [List.flatMap_cons, ih, joints, instructions, List.getLastD_cons]
    simp only [List.append_assoc]

theorem length_texts (w : Wrapper) (ws : List Wrapper) :
    ((w :: ws).flatMap instructions).length = 5 * ws.length + 5 := by
  rw [flatMap_instructions]
  simp only [List.length_append, length_joints, opening, body, closing, List.length_cons, List.length_nil]
  omega

theorem tail_flatMap_instructions (w : Wrapper) (ws : List Wrapper) :
    ((w :: ws).flatMap instructions).tail = w.instructions.tail ++ ws.flatMap instructions := rfl

theorem keptFrom_joints (w : Wrapper) (ws : List Wrapper) : keptFrom joined 0 (w.joints ws) = ws.flatMap body := by
  induction ws generalizing w with
  | nil => rfl
  | cons v ws ih =>
    have hround (k : Nat) : joined (k + 5) = joined k := by rw [joined, Nat.add_mod_right, joined]
    have hkept : keptFrom joined 0 (w.closing ++ v.opening ++ v.body) = v.body := rfl
    have hlength : 0 + (w.closing ++ v.opening ++ v.body).length = 0 + 5 := rfl
    rw [joints, keptFrom_append, hkept, hlength, keptFrom_add hround, ih, List.flatMap_cons]

end Wrapper

namespace Pattern

variable {l : Limits} {q : List Instruction} {first stop n : Nat}

theorem IsRun.glyphRuns_alike (h : glyphRuns.IsRun q first stop) (hn : first + 5 * (n + 1) ≤ stop) {w : Wrapper}
    (hw : w ∈ wrappers q (first + 5) n) : Arg.sharesWithAll (Wrapper.ofIndex q first).font w.font := by
  obtain ⟨k, hk, rfl⟩ := mem_wrappers.1 hw
  have hi := h.agrees (first + 5 * (k + 1) + 1) (by change first + 5 ≤ _; omega) (by omega)
  have ho : (first + 5 * (k + 1) + 1 - first) % glyphRuns.period = 1 := offset_eq glyphRuns (by decide) first (k + 1)
  have he : first + 5 * (k + 1) = first + 5 + 5 * k := by omega
  unfold Pattern.agrees at hi
  rwa [ho, he] at hi

theorem retain_joints (pre post : List Instruction) (w : Wrapper) (ws : List Wrapper) :
    (ofList (pre ++ w.joints ws ++ post)).retainIn pre.length (pre.length + 5 * ws.length) Wrapper.joined =
      .ok (ofList (pre ++ ws.flatMap Wrapper.body ++ post)) := by
  rw [← Wrapper.length_joints w ws, Columns.retainIn_ofList, Wrapper.keptFrom_joints]

def followsSameText (q : List Instruction) (first : Nat) : Bool :=
  4 ≤ first && (stretch q (first - 4) first).map (·.tag) = textEnd &&
    Arg.sharesWithAll (argsOf q (first - 4)) (argsOf q (first + 1))

theorem tagsAt_eq (start : Nat) (h : start + n ≤ q.length) :
    (List.range n).mapM (fun k ↦ (ofList q).tagAt (start + k)) = .ok ((stretch q start (start + n)).map (·.tag)) := by
  let g (k : Nat) : Tag := (q[start + k]?.map (·.tag)).getD .save
  have hg : (List.range n).map g = (stretch q start (start + n)).map (·.tag) := by
    apply List.ext_getElem
    · rw [List.length_map, List.length_map, List.length_range, length_stretch h, Nat.add_sub_cancel_left]
    · intro k hk _
      have hk : start + k < q.length := by
        rw [List.length_map, List.length_range] at hk
        omega
      simp [g, stretch, hk]
  rw [← hg]
  refine mapM_ok fun k hk ↦ ?_
  have hk : start + k < q.length := by
    have := List.mem_range.1 hk
    omega
  have hat := List.getElem?_eq_getElem hk
  rw [Columns.tagAt_ofList hat]
  simp [g, hk]

theorem endsSameText_eq (h : first + 1 < q.length) : endsSameText (ofList q) first = .ok (followsSameText q first) := by
  rw [endsSameText]
  by_cases hf : first < 4
  · rw [if_pos hf, followsSameText, decide_eq_false (by omega)]
    rfl
  · have htags := tagsAt_eq (q := q) (n := 4) (first - 4) (by omega)
    rw [Nat.sub_add_cancel (Nat.not_lt.1 hf)] at htags
    rw [if_neg hf, distance_ok (Nat.not_lt.1 hf), ok_bind, htags, ok_bind, argsAt_eq (by omega), argsAt_eq h,
      followsSameText, decide_eq_true (Nat.not_lt.1 hf),
      Bool.true_and]
    by_cases ht : (stretch q (first - 4) first).map (·.tag) = textEnd
    · rw [decide_eq_true ht, Bool.true_and]
      exact if_pos ht
    · rw [decide_eq_false ht, Bool.false_and]
      exact if_neg ht

def textBefore (q : List Instruction) (first : Nat) : Wrapper :=
  ⟨[], argsOf q (first - 4), argsOf q (first - 3), argsOf q (first - 2), argsOf q (first - 1)⟩

theorem followsSameText_iff : followsSameText q first ↔ 4 ≤ first ∧
    (stretch q (first - 4) first).map (·.tag) = textEnd ∧
    Arg.sharesWithAll (textBefore q first).font (Wrapper.ofIndex q first).font := by
  rw [followsSameText, Bool.and_eq_true, Bool.and_eq_true, decide_eq_true_eq, decide_eq_true_eq, and_assoc]
  rfl

theorem stretch_eq_textBefore (h : 4 ≤ first) (ht : (stretch q (first - 4) first).map (·.tag) = textEnd) :
    stretch q (first - 4) first = (textBefore q first).instructions.tail := by
  obtain ⟨start, rfl⟩ := Nat.exists_eq_add_of_le' h
  rw [Nat.add_sub_cancel] at ht ⊢
  have hat (k : Nat) (hk : k < 4) : q[start + k]?.map (·.tag) = textEnd[k]? := by
    rw [← ht, List.getElem?_map, stretch, List.getElem?_take_of_lt (by omega), List.getElem?_drop]
  have h₀ : q.drop start = ⟨.setFont, argsOf q start⟩ :: q.drop (start + 1) := drop_eq_cons (hat 0 (by omega))
  rw [stretch, Nat.add_sub_cancel_left, h₀, drop_eq_cons (hat 1 (by omega)), drop_eq_cons (hat 2 (by omega)),
    drop_eq_cons (hat 3 (by omega))]
  rfl

theorem batchGlyphRuns_short (h : glyphRuns.IsRun q first stop)
    (hn : min ((stop - first) / 5) l.maxGlyphRuns < l.minGlyphRuns) :
    batchGlyphRuns l (ofList q) first stop = .ok ⟨ofList q, stop - (stop - first) % glyphRuns.period⟩ := by
  have hle : first ≤ stop := (Nat.le_add_right _ _).trans h.whole
  rw [batchGlyphRuns, distance_ok hle, ok_bind, if_pos hn, leave_eq _ hle]

theorem batchGlyphRuns_alone (h : glyphRuns.IsRun q first stop) (hn : n + 1 = min ((stop - first) / 5) l.maxGlyphRuns)
    (hl : l.minGlyphRuns ≤ n + 1) (hf : ¬ followsSameText q first) :
    batchGlyphRuns l (ofList q) first stop =
      .ok ⟨ofList (q.take first ++ (Wrapper.ofIndex q first).merged (wrappers q (first + 5) n) ++
        q.drop (first + 5 * (n + 1))), first + (2 * n + 5)⟩ := by
  have hle : first ≤ stop := (Nat.le_add_right _ _).trans h.whole
  have hq := h.within
  have hpre : (q.take first ++ (Wrapper.ofIndex q first).opening ++ (Wrapper.ofIndex q first).body).length =
      first + 4 := by
    rw [List.length_append, List.length_append, List.length_take, Nat.min_eq_left (by omega)]
    rfl
  have hr := retain_joints (q.take first ++ (Wrapper.ofIndex q first).opening ++ (Wrapper.ofIndex q first).body)
    (((wrappers q (first + 5) n).getLastD (Wrapper.ofIndex q first)).closing ++ q.drop (first + 5 * (n + 1)))
    (Wrapper.ofIndex q first) (wrappers q (first + 5) n)
  have hqueue : q.take first ++ (wrappers q first (n + 1)).flatMap Wrapper.instructions ++
      q.drop (first + 5 * (n + 1)) = q := by
    rw [← stretch_eq_wrappers h.tags (by omega), take_append_stretch (by omega), List.take_append_drop]
  rw [wrappers_succ, Wrapper.flatMap_instructions] at hqueue
  simp only [List.append_assoc] at hqueue hr hpre
  rw [hqueue, hpre, length_wrappers] at hr
  rw [batchGlyphRuns, distance_ok hle, ok_bind, ← hn, if_neg (by omega), endsSameText_eq (by omega), ok_bind, if_neg hf,
    pure_eq_ok, ok_bind, if_neg hf, distance_ok (by omega)]
  dsimp only
  rw [ok_bind, Nat.add_sub_cancel]
  have hjoined : (fun offset ↦ decide (3 ≤ offset % 5)) = Wrapper.joined := rfl
  rw [hjoined, hr, ok_bind, Wrapper.merged, List.flatMap_cons]
  simp only [List.append_assoc, pure_eq_ok]
  congr 2
  omega

theorem batchGlyphRuns_joined (h : glyphRuns.IsRun q first stop) (hn : n + 1 = min ((stop - first) / 5) l.maxGlyphRuns)
    (hl : l.minGlyphRuns ≤ n + 1) (hf : followsSameText q first) :
    batchGlyphRuns l (ofList q) first stop =
      .ok ⟨ofList (q.take (first - 4) ++ ((textBefore q first).merged (wrappers q first (n + 1))).tail ++
        q.drop (first + 5 * (n + 1))), first - 4 + (2 * n + 6)⟩ := by
  have hle : first ≤ stop := (Nat.le_add_right _ _).trans h.whole
  have hq := h.within
  obtain ⟨hfour, htags, -⟩ := followsSameText_iff.1 hf
  -- Nothing is known of what the text before began with, so only the rest of it is before the joints.
  let rest : List Instruction := ⟨.setFont, (textBefore q first).font⟩ :: (textBefore q first).body
  have hpre : (q.take (first - 4) ++ rest).length = first - 1 := by
    rw [List.length_append, List.length_take, Nat.min_eq_left (by omega)]
    simp only [rest, Wrapper.body, List.length_cons, List.length_nil]
    omega
  have hr := retain_joints (q.take (first - 4) ++ rest)
    (((wrappers q first (n + 1)).getLastD (textBefore q first)).closing ++ q.drop (first + 5 * (n + 1)))
    (textBefore q first) (wrappers q first (n + 1))
  have hqueue : q.take (first - 4) ++
      ((textBefore q first :: wrappers q first (n + 1)).flatMap Wrapper.instructions).tail ++
      q.drop (first + 5 * (n + 1)) = q := by
    rw [Wrapper.tail_flatMap_instructions, ← stretch_eq_textBefore hfour htags,
      ← stretch_eq_wrappers h.tags (by omega), stretch_append_stretch (by omega) (by omega),
      take_append_stretch (by omega), List.take_append_drop]
  rw [Wrapper.flatMap_instructions] at hqueue
  simp only [Wrapper.opening, List.cons_append, List.nil_append, List.tail_cons, List.append_assoc] at hqueue
  simp only [rest, List.append_assoc, List.cons_append] at hr hpre
  rw [hqueue, hpre, length_wrappers] at hr
  rw [batchGlyphRuns, distance_ok hle, ok_bind, ← hn, if_neg (by omega), endsSameText_eq (by omega), ok_bind, if_pos hf,
    distance_ok (by omega), ok_bind, if_pos hf, distance_ok (by omega)]
  dsimp only
  rw [ok_bind, Nat.add_sub_cancel]
  have hjoined : (fun offset ↦ decide (3 ≤ offset % 5)) = Wrapper.joined := rfl
  rw [hjoined, hr, ok_bind, Wrapper.merged, List.flatMap_cons]
  simp only [Wrapper.opening, List.cons_append, List.nil_append, List.tail_cons, List.append_assoc, pure_eq_ok]
  congr 2
  omega

theorem batchGlyphRuns_gives (hl : l.Valid) (h : glyphRuns.IsRun q first stop) :
    ∃ b start next form, batchGlyphRuns l (ofList q) first stop = .ok b ∧ Gives l q first stop b start next form := by
  have hq := h.within
  by_cases hn : min ((stop - first) / 5) l.maxGlyphRuns < l.minGlyphRuns
  · exact ⟨_, _, _, _, batchGlyphRuns_short h hn, gives_leave l h.whole hq⟩
  have hmin := hl.glyphRuns
  obtain ⟨n, hn'⟩ := Nat.exists_eq_add_one.2 (show 0 < min ((stop - first) / 5) l.maxGlyphRuns by omega)
  have hrun : stretch q first (first + 5 * (n + 1)) =
      (Wrapper.ofIndex q first :: wrappers q (first + 5) n).flatMap Wrapper.instructions := by
    rw [stretch_eq_wrappers h.tags (by omega), wrappers_succ]
  have hleast : l.minGlyphRuns ≤ (Wrapper.ofIndex q first :: wrappers q (first + 5) n).length := by
    rw [List.length_cons, length_wrappers]
    omega
  have hmost : (Wrapper.ofIndex q first :: wrappers q (first + 5) n).length ≤ l.maxGlyphRuns := by
    rw [List.length_cons, length_wrappers]
    omega
  have hfont (w : Wrapper) (hw : w ∈ wrappers q (first + 5) n) := h.glyphRuns_alike (n := n) (w := w) (by omega) hw
  by_cases hf : followsSameText q first
  · obtain ⟨hfour, htags, hsame⟩ := followsSameText_iff.1 hf
    refine ⟨_, first - 4, first + 5 * (n + 1), _, batchGlyphRuns_joined h hn'.symm (by omega) hf, rfl, ?_, ?_,
      by omega, by omega, .inr ⟨by omega, htags⟩⟩
    · rw [List.length_tail, Wrapper.length_merged, length_wrappers]
      dsimp only
      omega
    · rw [← stretch_append_stretch (show first - 4 ≤ first by omega) (by omega), stretch_eq_textBefore hfour htags,
        hrun, wrappers_succ]
      have hr := Rewrite.joinedText (textBefore q first) _ _ hleast hmost hsame hfont
      rw [Wrapper.tail_flatMap_instructions] at hr
      exact .of_rewrite hl hr
  · refine ⟨_, first, first + 5 * (n + 1), _, batchGlyphRuns_alone h hn'.symm (by omega) hf, rfl, ?_, ?_,
      by omega, by omega, .inl rfl⟩
    · rw [Wrapper.length_merged, length_wrappers]
    · rw [hrun]
      exact .of_rewrite hl (.text _ _ hleast hmost hfont)

end Pattern

end DisplayList
