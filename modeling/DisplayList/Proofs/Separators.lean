import DisplayList.Proofs.Scan

namespace DisplayList

open Columns (ofList)

def dependenciesIn (is : List Instruction) : List Instruction := is.filter fun i ↦ i.tag = .dependency

@[simp]
theorem dependenciesIn_append (is js : List Instruction) :
    dependenciesIn (is ++ js) = dependenciesIn is ++ dependenciesIn js :=
  List.filter_append ..

theorem dependenciesIn_eq_nil_iff {is : List Instruction} :
    dependenciesIn is = [] ↔ ∀ i ∈ is, i.tag ≠ .dependency := by
  simp [dependenciesIn, List.filter_eq_nil_iff]

theorem dependenciesIn_flatMap {α : Type} {f : α → List Instruction} (h : ∀ a, dependenciesIn (f a) = [])
    (as : List α) : dependenciesIn (as.flatMap f) = [] := by
  induction as with
  | nil => rfl
  | cons a as ih => rw [List.flatMap_cons, dependenciesIn_append, h, ih, List.append_nil]

def Quiet (q : List Instruction) (start stop : Nat) : Prop :=
  ∀ i, start ≤ i → i < stop → q[i]?.map (·.tag) ≠ some .dependency

section Quiet

variable {q form : List Instruction} {start start' stop stop' : Nat} {c : Columns}

theorem Quiet.mono (h : Quiet q start stop) (hstart : start ≤ start') (hstop : stop' ≤ stop) : Quiet q start' stop' :=
  fun i hi his ↦ h i (hstart.trans hi) (his.trans_le hstop)

theorem Quiet.dependenciesIn_stretch (h : Quiet q start stop) : dependenciesIn (stretch q start stop) = [] := by
  rw [dependenciesIn_eq_nil_iff]
  intro i hi htag
  obtain ⟨k, hk, rfl⟩ := List.getElem_of_mem hi
  simp only [stretch, List.length_take, List.length_drop] at hk
  refine h (start + k) (Nat.le_add_right _ _) (by omega) ?_
  rw [List.getElem?_eq_getElem (by omega), ← htag]
  simp [stretch]

theorem Quiet.replace (h : Quiet q start stop) (hle : start ≤ stop) (hform : dependenciesIn form = []) :
    dependenciesIn (q.take start ++ form ++ q.drop stop) = dependenciesIn q := by
  conv_rhs => rw [← List.take_append_drop start q, ← stretch_append_drop hle]
  rw [dependenciesIn_append, dependenciesIn_append, dependenciesIn_append, dependenciesIn_append,
    h.dependenciesIn_stretch, hform, List.append_nil, List.nil_append]

theorem mem_of_mem_keptFrom {α : Type} {keep : Nat → Bool} {k : Nat} {xs : List α} {x : α}
    (h : x ∈ keptFrom keep k xs) : x ∈ xs := by
  induction xs generalizing k with
  | nil => cases h
  | cons y xs ih =>
    rw [keptFrom] at h
    split at h
    · obtain rfl | h := List.mem_cons.1 h
      · exact List.mem_cons_self
      · exact List.mem_cons_of_mem _ (ih h)
    · exact List.mem_cons_of_mem _ (ih h)

theorem Quiet.retain (h : Quiet q start stop) (hle : start ≤ stop) (hq : stop ≤ q.length) {keep : Nat → Bool}
    (hc : (ofList q).retainIn start stop keep = .ok c) :
    ∃ q', c = ofList q' ∧ dependenciesIn q' = dependenciesIn q := by
  have hr := Columns.retainIn_ofList (q.take start) (stretch q start stop) (q.drop stop) keep
  rw [take_append_stretch hle, List.take_append_drop, List.length_take, length_stretch hq, Nat.min_eq_left (by omega),
    Nat.add_sub_cancel' hle, hc] at hr
  refine ⟨_, Except.ok.inj hr, h.replace hle ?_⟩
  rw [dependenciesIn_eq_nil_iff]
  exact fun i hi ↦ dependenciesIn_eq_nil_iff.1 h.dependenciesIn_stretch i (mem_of_mem_keptFrom hi)

end Quiet

namespace Pattern

variable {p : Pattern} {l : Limits} {q : List Instruction} {first stop start n : Nat} {b : Batching} {tag : Tag}
  {args : List Arg}

theorem dependency_notMem_group (p : Pattern) : Tag.dependency ∉ p.group := by cases p <;> decide

theorem quiet_of_tagFits (h : ∀ i, first ≤ i → i < stop → p.TagFits q first i) : Quiet q first stop := by
  intro i hi his htag
  have hfits := h i hi his
  rw [TagFits, htag] at hfits
  exact p.dependency_notMem_group (List.mem_of_getElem? hfits.symm)

def Spares (q : List Instruction) (b : Batching) : Prop :=
  ∃ q', b.columns = ofList q' ∧ dependenciesIn q' = dependenciesIn q

theorem spares_of_leave (h : p.leave (ofList q) first stop = .ok b) : Spares q b := by
  obtain ⟨length, -, h⟩ := bind_eq_ok h
  obtain ⟨resume, -, h⟩ := bind_eq_ok h
  cases h
  exact ⟨q, rfl, rfl⟩

theorem spares_of_collapse (hquiet : Quiet q first (first + 4 * n)) (hq : first + 4 * n ≤ q.length)
    (htag : tag ≠ .dependency) (h : collapse (ofList q) first n tag args = .ok b) : Spares q b := by
  rw [collapse_eq hq] at h
  cases h
  refine ⟨_, rfl, hquiet.replace (Nat.le_add_right _ _) ?_⟩
  simpa [dependenciesIn] using htag

theorem batchInlineImages_spares (h : inlineImages.IsRun q first stop)
    (hb : batchInlineImages l (ofList q) first stop = .ok b) : Spares q b := by
  have hle : first ≤ stop := (Nat.le_add_right _ _).trans h.whole
  have hq := h.within
  rw [batchInlineImages, distance_ok hle, ok_bind] at hb
  dsimp only at hb
  split at hb
  · exact spares_of_leave hb
  obtain ⟨transforms, -, hb⟩ := bind_eq_ok hb
  obtain ⟨paints, -, hb⟩ := bind_eq_ok hb
  split at hb
  · exact spares_of_leave hb
  · obtain ⟨atlas, -, hb⟩ := bind_eq_ok hb
    exact spares_of_collapse ((quiet_of_tagFits h.tags).mono le_rfl (by omega)) (by omega) (by decide) hb

theorem batchImages_spares (h : images.IsRun q first stop) (hb : batchImages l (ofList q) first stop = .ok b) :
    Spares q b := by
  have hle : first ≤ stop := (Nat.le_add_right _ _).trans h.whole
  have hq := h.within
  rw [batchImages, distance_ok hle, ok_bind] at hb
  dsimp only at hb
  split at hb
  · exact spares_of_leave hb
  obtain ⟨transforms, -, hb⟩ := bind_eq_ok hb
  obtain ⟨paint, -, hb⟩ := bind_eq_ok hb
  exact spares_of_collapse ((quiet_of_tagFits h.tags).mono le_rfl (by omega)) (by omega) (by decide) hb

theorem repeats_le (mask : Resource) (transforms paints : List (List Arg)) (h : 0 < transforms.length) :
    repeats mask transforms paints ≤ transforms.length := by
  refine Nat.lt_of_le_of_lt (List.takeWhile_prefix _).length_le ?_
  rw [List.length_tail, List.length_zip]
  omega

theorem collapseMasks_spares (hquiet : Quiet q first (first + 4 * n)) (hq : first + 4 * n ≤ q.length)
    (hb : collapseMasks l (ofList q) first stop n = .ok b) : Spares q b := by
  rw [collapseMasks, transforms_eq hq, ok_bind, paints_eq hq, ok_bind] at hb
  obtain ⟨paint, -, hb⟩ := bind_eq_ok hb
  split at hb
  · exact spares_of_leave hb
  rename_i mask hmask
  dsimp only at hb
  split at hb
  · rename_i hsame
    -- Without a first transform none is upright, so there is at least one group here.
    have hn : 0 < n := by
      refine Nat.pos_of_ne_zero fun hn ↦ ?_
      subst hn
      cases hsame
    have hle := repeats_le mask ((quartets q first n).map (·.transform)) ((quartets q first n).map (·.paint))
      (by rwa [List.length_map, length_quartets])
    rw [List.length_map, length_quartets] at hle
    exact spares_of_collapse (hquiet.mono le_rfl (by omega)) (by omega) (by decide) hb
  · split at hb
    · exact spares_of_leave hb
    · exact spares_of_collapse (hquiet.mono le_rfl (by omega)) (by omega) (by decide) hb

theorem batchImageMasks_spares (h : imageMasks.IsRun q first stop)
    (hb : batchImageMasks l (ofList q) first stop = .ok b) : Spares q b := by
  have hq := h.within
  have hwhole := h.whole
  obtain ⟨total, htotal⟩ : ∃ total, total = (stop - first) / 4 := ⟨_, rfl⟩
  obtain ⟨solid, hs, hsolid⟩ := exists_solidMasks q first total
  have hquiet := quiet_of_tagFits h.tags
  have hretagged : dependenciesIn (retagged q first solid) = dependenciesIn q :=
    (hquiet.mono le_rfl (by omega)).replace (Nat.le_add_right _ _) (dependenciesIn_flatMap (fun _ ↦ rfl) _)
  rw [batchImageMasks_eq h htotal hs] at hb
  split at hb
  · cases hb
    exact ⟨_, rfl, hretagged⟩
  · have hfit : first + 4 * solid ≤ q.length := by omega
    obtain ⟨q', hc, hdeps⟩ := collapseMasks_spares (fun i hi his ↦ by
      rw [getElem?_retagged hfit hi]
      exact hquiet i (by omega) (by omega)) (by rw [length_retagged hfit]; omega) hb
    exact ⟨q', hc, hdeps.trans hretagged⟩

theorem quiet_of_followsSameText (h : followsSameText q first) : Quiet q (first - 4) first := by
  obtain ⟨hfour, htags, -⟩ := followsSameText_iff.1 h
  intro i hi his htag
  have hmem : Tag.dependency ∈ (stretch q (first - 4) first).map (·.tag) := by
    obtain ⟨j, hj, hjtag⟩ := Option.map_eq_some_iff.1 htag
    refine List.mem_map.2 ⟨j, List.mem_of_getElem? (i := i - (first - 4)) ?_, hjtag⟩
    rw [stretch, List.getElem?_take_of_lt (by omega), List.getElem?_drop, Nat.add_sub_cancel' hi, hj]
  rw [htags] at hmem
  exact absurd hmem (by decide)

theorem batchGlyphRuns_spares (h : glyphRuns.IsRun q first stop)
    (hb : batchGlyphRuns l (ofList q) first stop = .ok b) : Spares q b := by
  have hle : first + 5 ≤ stop := h.whole
  have hq := h.within
  have hquiet := quiet_of_tagFits h.tags
  rw [batchGlyphRuns, distance_ok (by omega), ok_bind] at hb
  dsimp only at hb
  split at hb
  · exact spares_of_leave hb
  rw [endsSameText_eq (by omega), ok_bind] at hb
  have hspares {firstEnd joints : Nat} {keep : Nat → Bool} {c : Columns} {resume : Nat}
      (hstretch : Quiet q firstEnd (firstEnd + 5 * joints)) (hfit : firstEnd + 5 * joints ≤ q.length)
      (hc : (ofList q).retainIn firstEnd (firstEnd + 5 * joints) keep = .ok c) : Spares q ⟨c, resume⟩ :=
    hstretch.retain (Nat.le_add_right _ _) hfit hc
  by_cases hf : followsSameText q first
  · obtain ⟨hfour, -, -⟩ := followsSameText_iff.1 hf
    rw [if_pos hf, distance_ok (by omega), ok_bind, if_pos hf, distance_ok (by omega), ok_bind] at hb
    obtain ⟨c, hc, hb⟩ := bind_eq_ok hb
    cases hb
    refine hspares (fun i hi his ↦ ?_) (by omega) hc
    obtain hi | hi := Nat.lt_or_ge i first
    · exact quiet_of_followsSameText hf i (by omega) hi
    · exact hquiet i hi (by omega)
  · rw [if_neg hf, pure_eq_ok, ok_bind, if_neg hf] at hb
    obtain ⟨joints, hjoints, hb⟩ := bind_eq_ok hb
    obtain ⟨c, hc, hb⟩ := bind_eq_ok hb
    cases hb
    rw [distance] at hjoints
    split at hjoints
    · cases hjoints
      exact hspares (hquiet.mono (by omega) (by omega)) (by omega) hc
    · cases hjoints

theorem batch_spares (h : p.IsRun q first stop) (hb : p.batch l (ofList q) first stop = .ok b) : Spares q b := by
  cases p with
  | inlineImages => exact batchInlineImages_spares h hb
  | imageMasks => exact batchImageMasks_spares h hb
  | images => exact batchImages_spares h hb
  | glyphRuns => exact batchGlyphRuns_spares h hb

end Pattern

namespace Optimizer

variable {o : Optimizer} {q : List Instruction} {s : Optimizer × Columns}

/-- What the optimizer remembers is true of the queue, whatever its limits. -/
structure Follows (o : Optimizer) (q : List Instruction) : Prop where
  leadIn : o.leadIn = .root ∨ o.resume ≤ q.length ∧ o.leadIn.Reads q o.resume
  run : ∀ run, o.run = some run → o.leadIn = .root ∧ run.pattern.IsRun q run.first o.resume

theorem follows_fresh (l : Limits) (n : Nat) (q : List Instruction) : Follows { limits := l, resume := n } q :=
  ⟨.inl rfl, fun _ h ↦ by cases h⟩

theorem Follows.reads (h : o.Follows q) : o.leadIn.Reads q o.resume := by
  obtain hroot | ⟨-, hreads⟩ := h.leadIn
  · rw [hroot]
    exact LeadIn.reads_root q o.resume
  · exact hreads

theorem Follows.append (h : o.Follows q) (r : List Instruction) : o.Follows (q ++ r) where
  leadIn := h.leadIn.imp_right fun ⟨hwithin, hreads⟩ ↦
    ⟨hwithin.trans (by rw [List.length_append]; exact Nat.le_add_right _ _), hreads.append hwithin r⟩
  run run hr := ⟨(h.run run hr).1, (h.run run hr).2.append r⟩

theorem follows_look (hlt : o.resume < q.length) (hrun : o.run = none) {l : LeadIn}
    (hl : l = .root ∨ l.Reads q (o.resume + 1)) :
    Follows { o with leadIn := l, resume := o.resume + 1 } q :=
  ⟨hl.imp_right fun hreads ↦ ⟨hlt, hreads⟩, fun _ hr ↦ by cases hrun.symm.trans hr⟩

theorem scan_spares (o : Optimizer) (q : List Instruction) (h : o.Follows q) (hs : o.scan (ofList q) = .ok s) :
    ∃ q', s.2 = ofList q' ∧ s.1.Follows q' ∧ q'.length ≤ s.1.resume ∧ dependenciesIn q' = dependenciesIn q := by
  by_cases hlt : o.resume < q.length
  · cases hrun : o.run with
    | some run =>
      obtain ⟨hroot, hisRun⟩ := h.run run hrun
      rw [scan_run hlt hrun hisRun] at hs
      split at hs
      · rename_i hend
        refine scan_spares { o with resume := o.resume + 1 } q ⟨.inl hroot, fun run' hrun' ↦ ⟨hroot, ?_⟩⟩ hs
        obtain rfl : run = run' := Option.some.inj (hrun.symm.trans hrun')
        exact hisRun.extend hlt hend.1 hend.2
      · obtain ⟨b, hb, hs⟩ := bind_eq_ok hs
        split at hs
        · rename_i hless
          obtain ⟨q', hc, hdeps⟩ := Pattern.batch_spares hisRun hb
          rw [hc] at hs
          have hless : q'.length - b.resume < q.length - run.first := by rwa [hc, Columns.size_ofList] at hless
          obtain ⟨q'', hq, hfollows, hend, hdeps'⟩ :=
            scan_spares { limits := o.limits, resume := b.resume } q' (follows_fresh _ _ q') hs
          exact ⟨q'', hq, hfollows, hend, hdeps'.trans hdeps⟩
        · cases hs
    | none =>
      have htag : q[o.resume]?.map (·.tag) = some q[o.resume].tag := by rw [List.getElem?_eq_getElem hlt]; rfl
      rw [scan_none hrun htag] at hs
      split at hs
      · exact scan_spares { o with leadIn := .root, resume := o.resume + 1 } q (follows_look hlt hrun (.inl rfl)) hs
      · rename_i l hread
        exact scan_spares { o with leadIn := l, resume := o.resume + 1 } q
          (follows_look hlt hrun (.inr (h.reads.read_advanced htag hread))) hs
      · rename_i p hread
        obtain ⟨hperiod, htags⟩ := h.reads.read_complete htag hread
        rw [if_pos hperiod, Pattern.admits_eq (by omega), ok_bind] at hs
        split at hs
        · rename_i hopens
          refine scan_spares { o with
            leadIn := .root, run := some ⟨p, o.resume + 1 - p.period⟩, resume := o.resume + 1 } q
            ⟨.inl rfl, fun run hr ↦ ⟨rfl, ?_⟩⟩ hs
          obtain rfl := Option.some.inj hr
          exact ⟨(Nat.sub_add_cancel hperiod).le, hlt, htags, hopens, fun i hi his ↦ by dsimp only at hi his; omega⟩
        · exact scan_spares { o with leadIn := .root, resume := o.resume + 1 } q (follows_look hlt hrun (.inl rfl)) hs
  · rw [scan, dif_neg (by rwa [Columns.size_ofList])] at hs
    cases hs
    exact ⟨q, rfl, h, Nat.not_lt.1 hlt, rfl⟩
termination_by (q.length - o.start, q.length - o.resume)
decreasing_by
  all_goals simp only [start, hrun, Prod.lex_def, LeadIn.root, true_and]
  all_goals try have := LeadIn.depth_of_read ‹_ = LeadIn.Progress.advanced _›
  all_goals try have := LeadIn.period_of_read ‹_ = LeadIn.Progress.complete _›
  all_goals omega

variable {tag : Tag} {args : List Arg}

structure Rests (o : Optimizer) (q : List Instruction) : Prop where
  follows : o.Follows q
  read : q.length ≤ o.resume

theorem rests_fresh (l : Limits) : Rests { limits := l } [] := ⟨follows_fresh l 0 [], Nat.zero_le _⟩

theorem Rests.push (h : o.Rests q) (tag : Tag) (args : List Arg) :
    ∃ q', (o.push (ofList q) tag args).2 = ofList q' ∧ (o.push (ofList q) tag args).1.Rests q' ∧
      dependenciesIn q' = dependenciesIn (q ++ [⟨tag, args⟩]) := by
  rw [Optimizer.push, Columns.push_ofList]
  cases hs : o.scanLast (ofList (q ++ [⟨tag, args⟩])) with
  | error e => exact ⟨_, rfl, ⟨follows_fresh _ _ _, (Columns.size_ofList _).ge⟩, rfl⟩
  | ok s =>
    rw [scanLast] at hs
    split at hs
    · rename_i hskip
      cases hs
      simp only [Bool.and_eq_true, Bool.not_eq_true', decide_eq_true_eq, isMatching, Bool.or_eq_false_iff,
        Option.isSome_eq_false_iff, Option.isNone_iff_eq_none, Bool.not_eq_false', LeadIn.isRoot] at hskip
      obtain ⟨⟨⟨hrun, hroot⟩, -⟩, -⟩ := hskip
      exact ⟨_, rfl, ⟨⟨.inl (h.follows.reads.root hroot), fun run hr ↦ by cases hrun.symm.trans hr⟩,
        (Columns.size_ofList _).ge⟩, rfl⟩
    · obtain ⟨q', hq, hfollows, hread, hdeps⟩ := scan_spares o _ (h.follows.append _) hs
      exact ⟨q', hq, ⟨hfollows, hread⟩, hdeps⟩

theorem settle_spares (o : Optimizer) (q : List Instruction) (h : o.Rests q) (hs : o.settle (ofList q) = .ok s) :
    ∃ q', s.2 = ofList q' ∧ dependenciesIn q' = dependenciesIn q := by
  cases hrun : o.run with
  | none =>
    rw [settle_none hrun] at hs
    cases hs
    exact ⟨q, rfl, rfl⟩
  | some run =>
    have hisRun := (h.follows.run run hrun).2
    have hend : o.resume = q.length := hisRun.within.antisymm h.read
    rw [settle] at hs
    split at hs
    · rename_i run' hrun'
      obtain rfl : run = run' := Option.some.inj (hrun.symm.trans hrun')
      obtain ⟨b, hb, hs⟩ := bind_eq_ok hs
      obtain ⟨s₁, hscan, hs⟩ := bind_eq_ok hs
      split at hs
      · rename_i hpending
        rw [Columns.size_ofList, ← hend] at hb
        obtain ⟨q₁, hc, hdeps⟩ := Pattern.batch_spares hisRun hb
        rw [hc] at hscan
        obtain ⟨q₂, hq, hfollows, hread, hdeps'⟩ := scan_spares _ q₁ (follows_fresh _ _ q₁) hscan
        rw [hq] at hs
        have hless : s₁.1.pending (ofList q₂) < o.pending (ofList q) := by rwa [hq] at hpending
        obtain ⟨q', hq', hdeps''⟩ := settle_spares s₁.1 q₂ ⟨hfollows, hread⟩ hs
        exact ⟨q', hq', hdeps''.trans (hdeps'.trans hdeps)⟩
      · cases hs
    · rename_i hrun'
      cases hrun.symm.trans hrun'
termination_by o.pending (ofList q)

theorem Rests.flush (h : o.Rests q) :
    ∃ q', (o.flush (ofList q)).2 = ofList q' ∧ dependenciesIn q' = dependenciesIn q := by
  rw [Optimizer.flush]
  cases hs : o.settle (ofList q) with
  | error e => exact ⟨q, rfl, rfl⟩
  | ok s => exact settle_spares o q h hs

end Optimizer

end DisplayList
