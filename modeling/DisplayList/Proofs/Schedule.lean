import DisplayList.Proofs.Edits
import DisplayList.Proofs.Preservation

namespace DisplayList

open Columns (ofList)

section Prefixes

variable {α β : Type}

def Stable (f : Columns → Except Fault α) : Prop :=
  ∀ ⦃q a⦄, f (ofList q) = .ok a → ∀ r, f (ofList (q ++ r)) = .ok a

/-- An edit that leaves alone whatever comes after the queue. -/
def Spares (f : Columns → Except Fault Columns) : Prop :=
  ∀ ⦃q c⦄, f (ofList q) = .ok c → ∃ q', c = ofList q' ∧ ∀ r, f (ofList (q ++ r)) = .ok (ofList (q' ++ r))

def SparesRest (f : Columns → Except Fault Batching) : Prop :=
  ∀ ⦃q b⦄, f (ofList q) = .ok b →
    ∃ q', b.columns = ofList q' ∧ ∀ r, f (ofList (q ++ r)) = .ok ⟨ofList (q' ++ r), b.resume⟩

theorem stable_const (x : Except Fault α) : Stable fun _ ↦ x := fun _ _ h _ ↦ h

theorem Stable.bind {f : Columns → Except Fault α} {g : α → Columns → Except Fault β} (hf : Stable f)
    (hg : ∀ a, Stable (g a)) : Stable fun c ↦ f c >>= fun a ↦ g a c := by
  intro q b h r
  obtain ⟨a, ha, hb⟩ := bind_eq_ok h
  dsimp only
  rw [hf ha r, ok_bind, hg a hb r]

theorem Stable.mapM {f : α → Columns → Except Fault β} (hf : ∀ a, Stable (f a)) (xs : List α) :
    Stable fun c ↦ xs.mapM fun a ↦ f a c := by
  induction xs with
  | nil => exact stable_const (.ok [])
  | cons x xs ih =>
    simp only [List.mapM_cons]
    exact (hf x).bind fun b ↦ ih.bind fun bs ↦ stable_const (.ok (b :: bs))

theorem Stable.then {f : Columns → Except Fault α} {g : α → Columns → Except Fault Batching} (hf : Stable f)
    (hg : ∀ a, SparesRest (g a)) : SparesRest fun c ↦ f c >>= fun a ↦ g a c := by
  intro q b h
  obtain ⟨a, ha, hb⟩ := bind_eq_ok h
  obtain ⟨q', hq', hr⟩ := hg a hb
  refine ⟨q', hq', fun r ↦ ?_⟩
  dsimp only
  rw [hf ha r, ok_bind, hr r]

theorem Spares.then {f : Columns → Except Fault Columns} {g : Columns → Except Fault Batching} (hf : Spares f)
    (hg : SparesRest g) : SparesRest fun c ↦ f c >>= g := by
  intro q b h
  obtain ⟨c, hc, hb⟩ := bind_eq_ok h
  obtain ⟨q₁, rfl, hr₁⟩ := hf hc
  obtain ⟨q', hq', hr⟩ := hg hb
  refine ⟨q', hq', fun r ↦ ?_⟩
  dsimp only
  rw [hr₁ r, ok_bind, hr r]

theorem sparesRest_resume (n : Nat) : SparesRest fun c ↦ .ok ⟨c, n⟩ := by
  intro q b h
  cases h
  exact ⟨q, rfl, fun r ↦ rfl⟩

theorem SparesRest.ite {P : Prop} [Decidable P] {f g : Columns → Except Fault Batching} (hf : SparesRest f)
    (hg : SparesRest g) : SparesRest fun c ↦ if P then f c else g c := by
  by_cases h : P
  · simpa only [if_pos h] using hf
  · simpa only [if_neg h] using hg

theorem Spares.foldlM {f : Columns → α → Except Fault Columns} (hf : ∀ a, Spares (f · a)) (xs : List α) :
    Spares fun c ↦ xs.foldlM f c := by
  induction xs with
  | nil =>
    intro q c h
    cases h
    exact ⟨q, rfl, fun r ↦ rfl⟩
  | cons x xs ih =>
    intro q c h
    obtain ⟨c₁, h₁, hc⟩ := bind_eq_ok h
    obtain ⟨q₁, rfl, hr₁⟩ := hf x h₁
    obtain ⟨q', hq', hr⟩ := ih hc
    refine ⟨q', hq', fun r ↦ ?_⟩
    have hfirst := hr₁ r
    dsimp only at hfirst ⊢
    rw [List.foldlM_cons, hfirst, ok_bind]
    exact hr r

end Prefixes

namespace Columns

theorem stable_of_getElem? {α : Type} {f : Columns → Except Fault α} {g : Instruction → α} (k : Nat)
    (hsome : ∀ {q : List Instruction} {i : Instruction}, q[k]? = some i → f (ofList q) = .ok (g i))
    (hnone : ∀ {q : List Instruction}, q.length ≤ k → f (ofList q) = .error .outOfRange) : Stable f := by
  intro q a h r
  obtain hlt | hge := Nat.lt_or_ge k q.length
  · have hq := List.getElem?_eq_getElem hlt
    have hr : (q ++ r)[k]? = some q[k] := by rw [List.getElem?_append_left hlt, hq]
    rw [hsome hq] at h
    rw [hsome hr, h]
  · cases (hnone hge).symm.trans h

theorem stable_tagAt (k : Nat) : Stable (tagAt · k) :=
  stable_of_getElem? k tagAt_ofList fun hge ↦ dif_neg (by simpa [ofList] using hge)

theorem stable_argsAt (k : Nat) : Stable (argsAt · k) :=
  stable_of_getElem? k argsAt_ofList fun hge ↦ dif_neg (by simpa [ofList] using hge)

theorem stable_argsEvery (start step count : Nat) : Stable (argsEvery · start step count) :=
  .mapM (fun k ↦ stable_argsAt (start + step * k)) _

theorem spares_replaceIn (start stop : Nat) (tag : Tag) (args : List Arg) :
    Spares (replaceIn · start stop tag args) := by
  intro q c h
  obtain ⟨pre, mid, post, rfl, rfl, rfl, rfl⟩ := exists_of_replaceIn h
  refine ⟨_, rfl, fun r ↦ ?_⟩
  dsimp only
  rw [List.append_assoc, replaceIn_ofList, List.append_assoc, List.cons_append]

theorem spares_retagAt (k : Nat) (tag : Tag) : Spares (retagAt · k tag) := by
  intro q c h
  obtain ⟨pre, i, post, rfl, rfl, rfl⟩ := exists_of_retagAt h
  refine ⟨_, rfl, fun r ↦ ?_⟩
  dsimp only
  rw [List.append_assoc, List.cons_append, retagAt_ofList, List.append_assoc, List.cons_append]

theorem spares_retainIn (start stop : Nat) (keep : Nat → Bool) : Spares (retainIn · start stop keep) := by
  intro q c h
  obtain ⟨pre, mid, post, rfl, rfl, rfl, rfl⟩ := exists_of_retainIn h
  refine ⟨_, rfl, fun r ↦ ?_⟩
  dsimp only
  rw [List.append_assoc, retainIn_ofList, List.append_assoc, List.append_assoc, List.append_assoc]

end Columns

namespace Pattern

open Columns

variable {l : Limits} {first stop n : Nat}

theorem stable_fits (p : Pattern) (first i offset : Nat) : Stable (p.fits · first i offset) := by
  unfold fits
  split
  · exact (stable_argsAt _).bind fun _ ↦ stable_const _
  · exact (stable_argsAt _).bind fun _ ↦ (stable_argsAt _).bind fun _ ↦ stable_const _
  · exact (stable_argsAt _).bind fun _ ↦ (stable_argsAt _).bind fun _ ↦ stable_const _
  · exact (stable_argsAt _).bind fun _ ↦ (stable_argsAt _).bind fun _ ↦ stable_const _
  · exact stable_const _

theorem stable_admits (p : Pattern) (first : Nat) : Stable (p.admits · first) := by
  cases p with
  | inlineImages | images => exact (stable_argsAt _).bind fun _ ↦ stable_const _
  | imageMasks | glyphRuns => exact stable_const _

theorem stable_continues (p : Pattern) (first i : Nat) : Stable (p.continues · first i) := by
  refine (stable_const _).bind fun d ↦ (stable_tagAt i).bind fun tag ↦ ?_
  by_cases h : p.group[d % p.period]? = some tag
  · simpa only [if_pos h] using p.stable_fits first i (d % p.period)
  · simpa only [if_neg h] using stable_const _

theorem sparesRest_leave (p : Pattern) (first stop : Nat) : SparesRest (p.leave · first stop) :=
  (stable_const _).then fun _ ↦ (stable_const _).then fun n ↦ sparesRest_resume n

theorem sparesRest_collapse (first n : Nat) (tag : Tag) (args : List Arg) :
    SparesRest (collapse · first n tag args) :=
  (spares_replaceIn _ _ _ _).then (sparesRest_resume _)

theorem sparesRest_batchInlineImages (l : Limits) (first stop : Nat) :
    SparesRest (batchInlineImages l · first stop) := by
  refine (stable_const _).then fun length ↦ .ite (sparesRest_leave _ _ _) ?_
  refine (stable_argsEvery _ _ _).then fun transforms ↦ (stable_argsEvery _ _ _).then fun paints ↦ ?_
  cases paints.mapM firstImage? with
  | none => exact sparesRest_leave _ _ _
  | some resources => exact (stable_const _).then fun atlas ↦ sparesRest_collapse _ _ _ _

theorem sparesRest_batchImages (l : Limits) (first stop : Nat) : SparesRest (batchImages l · first stop) := by
  refine (stable_const _).then fun length ↦ .ite (sparesRest_leave _ _ _) ?_
  exact (stable_argsEvery _ _ _).then fun transforms ↦ (stable_argsAt _).then fun paint ↦ sparesRest_collapse _ _ _ _

theorem sparesRest_collapseMasks (l : Limits) (first stop n : Nat) : SparesRest (collapseMasks l · first stop n) := by
  refine (stable_argsEvery _ _ _).then fun transforms ↦ (stable_argsEvery _ _ _).then fun paints ↦ ?_
  refine (stable_argsAt _).then fun paint ↦ ?_
  cases firstImage? paint with
  | none => exact sparesRest_leave _ _ _
  | some mask =>
    refine .ite (sparesRest_collapse _ _ _ _) ?_
    dsimp only
    cases (paints.take (min n l.maxImageMasks)).mapM firstImage? with
    | none => exact sparesRest_leave _ _ _
    | some masks => exact sparesRest_collapse _ _ _ _

theorem sparesRest_batchImageMasks (l : Limits) (first stop : Nat) :
    SparesRest (batchImageMasks l · first stop) := by
  refine (stable_const _).then fun length ↦ (stable_argsEvery _ _ _).then fun paints ↦ ?_
  refine (Spares.foldlM (fun k ↦ spares_retagAt _ _) _).then ?_
  exact (stable_const _).then fun count ↦ .ite (sparesRest_leave _ _ _) (sparesRest_collapseMasks _ _ _ _)

theorem stable_endsSameText (first : Nat) : Stable (endsSameText · first) := by
  unfold endsSameText
  by_cases hfirst : first < 4
  · simpa only [if_pos hfirst] using stable_const _
  simp only [if_neg hfirst]
  refine (stable_const _).bind fun before ↦ (Stable.mapM (fun k ↦ stable_tagAt _) _).bind fun tags ↦ ?_
  by_cases htags : tags = [.setFont, .setTextMatrix, .showText, .endText]
  · simpa only [if_pos htags] using
      (stable_argsAt before).bind fun _ ↦ (stable_argsAt (first + 1)).bind fun _ ↦ stable_const _
  · simpa only [if_neg htags] using stable_const _

theorem sparesRest_batchGlyphRuns (l : Limits) (first stop : Nat) : SparesRest (batchGlyphRuns l · first stop) := by
  refine (stable_const _).then fun length ↦ .ite (sparesRest_leave _ _ _) ?_
  refine (stable_endsSameText first).then fun joins ↦ ?_
  refine .ite ?_ ?_
  all_goals
    refine (stable_const _).then fun firstEnd ↦ (stable_const _).then fun joints ↦ ?_
    exact (spares_retainIn _ _ _).then (sparesRest_resume _)

theorem sparesRest_batch (p : Pattern) (l : Limits) (first stop : Nat) : SparesRest (p.batch l · first stop) := by
  cases p with
  | inlineImages => exact sparesRest_batchInlineImages l first stop
  | imageMasks => exact sparesRest_batchImageMasks l first stop
  | images => exact sparesRest_batchImages l first stop
  | glyphRuns => exact sparesRest_batchGlyphRuns l first stop

end Pattern

namespace Optimizer

variable {o : Optimizer} {l : Limits} {q : List Instruction} {c : Columns} {s : Optimizer × Columns} {run : Run}

theorem scan_following (hlt : o.resume < c.size) (hrun : o.run = some run) : o.scan c =
    run.pattern.continues c run.first o.resume >>= fun goesOn ↦
      if goesOn then
        scan { o with resume := o.resume + 1 } c
      else
        run.pattern.batch o.limits c run.first o.resume >>= fun b ↦
          if b.columns.size - b.resume < c.size - run.first then
            scan { limits := o.limits, resume := b.resume } b.columns
          else
            .error .noProgress := by
  rw [scan, dif_pos hlt]
  split
  · rename_i run' hrun'
    obtain rfl : run = run' := Option.some.inj (hrun.symm.trans hrun')
    rfl
  · rename_i hrun'
    cases hrun.symm.trans hrun'

theorem scan_looking (hlt : o.resume < c.size) (hrun : o.run = none) : o.scan c =
    c.tagAt o.resume >>= fun tag ↦
      match o.leadIn.read tag with
      | .miss => scan { o with leadIn := .root, resume := o.resume + 1 } c
      | .advanced l => scan { o with leadIn := l, resume := o.resume + 1 } c
      | .complete p =>
        if p.period ≤ o.resume + 1 then
          p.admits c (o.resume + 1 - p.period) >>= fun opens ↦
            if opens then
              scan { o with leadIn := .root, run := some ⟨p, o.resume + 1 - p.period⟩, resume := o.resume + 1 } c
            else
              scan { o with leadIn := .root, resume := o.resume + 1 } c
        else
          .error .belowZero := by
  rw [scan, dif_pos hlt]
  split
  · rename_i run' hrun'
    cases hrun.symm.trans hrun'
  · congr 1
    funext tag
    split <;> rename_i hread <;> rw [hread]

theorem scan_append (o : Optimizer) (c : Columns) (hc : c = ofList q) (h : o.scan c = .ok s) :
    ∃ q', s.2 = ofList q' ∧ ∀ r, o.scan (ofList (q ++ r)) = s.1.scan (ofList (q' ++ r)) := by
  induction o, c using scan.induct generalizing q with
  | case1 o c hlt run hrun ihFollow ihBatch =>
    subst hc
    have hlt' (r : List Instruction) : o.resume < (ofList (q ++ r)).size := by
      rw [Columns.size_ofList] at hlt ⊢
      exact hlt.trans_le (by rw [List.length_append]; exact Nat.le_add_right _ _)
    rw [scan_following hlt hrun] at h
    obtain ⟨goesOn, hgoesOn, h⟩ := bind_eq_ok h
    have hgoesOn' (r : List Instruction) : run.pattern.continues (ofList (q ++ r)) run.first o.resume = .ok goesOn :=
      run.pattern.stable_continues _ _ hgoesOn r
    split at h
    · rename_i hyes
      obtain ⟨q', hq', hr⟩ := ihFollow rfl h
      refine ⟨q', hq', fun r ↦ ?_⟩
      rw [← hr r, scan_following (hlt' r) hrun, hgoesOn' r, ok_bind, if_pos hyes]
    · rename_i hno
      obtain ⟨b, hb, h⟩ := bind_eq_ok h
      obtain ⟨q₁, hq₁, hb'⟩ : ∃ q₁, b.columns = ofList q₁ ∧ ∀ r,
          run.pattern.batch o.limits (ofList (q ++ r)) run.first o.resume = .ok ⟨ofList (q₁ ++ r), b.resume⟩ :=
        run.pattern.sparesRest_batch _ _ _ hb
      split at h
      · rename_i hless
        obtain ⟨q', hq', hr⟩ := ihBatch b hless hq₁ h
        refine ⟨q', hq', fun r ↦ ?_⟩
        rw [hq₁, Columns.size_ofList, Columns.size_ofList] at hless
        rw [← hr r, scan_following (hlt' r) hrun, hgoesOn' r, ok_bind, if_neg hno, hb' r, ok_bind, if_pos ?_]
        -- What comes after the queue is left to do before the batching and after it.
        dsimp only
        rw [Columns.size_ofList, Columns.size_ofList, List.length_append, List.length_append]
        omega
      · cases h
  | case2 o c hlt hrun ihMiss ihLead ihEnter ihRefuse =>
    subst hc
    have hlt' (r : List Instruction) : o.resume < (ofList (q ++ r)).size := by
      rw [Columns.size_ofList] at hlt ⊢
      exact hlt.trans_le (by rw [List.length_append]; exact Nat.le_add_right _ _)
    rw [scan_looking hlt hrun] at h
    obtain ⟨tag, htag, h⟩ := bind_eq_ok h
    have htag' (r : List Instruction) : (ofList (q ++ r)).tagAt o.resume = .ok tag := Columns.stable_tagAt _ htag r
    split at h
    · rename_i hread
      obtain ⟨q', hq', hr⟩ := ihMiss rfl h
      refine ⟨q', hq', fun r ↦ ?_⟩
      rw [← hr r, scan_looking (hlt' r) hrun, htag' r, ok_bind, hread]
    · rename_i l hread
      obtain ⟨q', hq', hr⟩ := ihLead tag l hread rfl h
      refine ⟨q', hq', fun r ↦ ?_⟩
      rw [← hr r, scan_looking (hlt' r) hrun, htag' r, ok_bind, hread]
    · rename_i p hread
      split at h
      · rename_i hperiod
        obtain ⟨opens, hopens, h⟩ := bind_eq_ok h
        have hopens' (r : List Instruction) : p.admits (ofList (q ++ r)) (o.resume + 1 - p.period) = .ok opens :=
          p.stable_admits _ hopens r
        have hnext (r : List Instruction) := scan_looking (hlt' r) hrun
        simp only [htag' _, ok_bind, hread, if_pos hperiod, hopens' _] at hnext
        split at h
        · rename_i hyes
          obtain ⟨q', hq', hr⟩ := ihEnter tag p hread hperiod rfl h
          refine ⟨q', hq', fun r ↦ ?_⟩
          rw [← hr r, hnext r, if_pos hyes]
        · rename_i hno
          obtain ⟨q', hq', hr⟩ := ihRefuse tag p hread rfl h
          refine ⟨q', hq', fun r ↦ ?_⟩
          rw [← hr r, hnext r, if_neg hno]
      · cases h
  | case3 o c hge =>
    rw [scan, dif_neg hge] at h
    cases h
    exact ⟨q, hc, fun r ↦ rfl⟩

/-- An instruction that comes to a queue, through the optimizer or behind its back. -/
inductive Arrival where
  | pushed (i : Instruction)
  | appended (i : Instruction)

def Arrival.instruction : Arrival → Instruction
  | pushed i | appended i => i

def arrive (s : Optimizer × Columns) : Arrival → Optimizer × Columns
  | .pushed i => s.1.push s.2 i.tag i.args
  | .appended i => (s.1, s.2.push i.tag i.args)

def arriveAll (s : Optimizer × Columns) (arrivals : List Arrival) : Optimizer × Columns := arrivals.foldl arrive s

theorem arriveAll_pushed (s : Optimizer × Columns) (is : List Instruction) :
    arriveAll s (is.map .pushed) = pushAll s is := by
  rw [arriveAll, List.foldl_map]
  rfl

/-- To go on from here comes to the same as to scan all of the stream at once, however much of it is still to come. -/
structure Resumes (l : Limits) (stream : List Instruction) (s : Optimizer × List Instruction) : Prop where
  recalls : s.1.Recalls s.2
  scan_eq : ∀ r, s.1.scan (ofList (s.2 ++ r)) = scan { limits := l } (ofList (stream ++ r))

variable {stream : List Instruction} {t : Optimizer × List Instruction}

theorem resumes_fresh (hl : l.Valid) : Resumes l [] ({ limits := l }, []) := ⟨recalls_fresh hl le_rfl, fun _ ↦ rfl⟩

theorem Resumes.append (h : Resumes l stream t) (i : Instruction) : Resumes l (stream ++ [i]) (t.1, t.2 ++ [i]) := by
  refine ⟨h.recalls.append [i], fun r ↦ ?_⟩
  rw [List.append_assoc, List.append_assoc]
  exact h.scan_eq ([i] ++ r)

theorem Resumes.push (h : Resumes l stream t) (i : Instruction) :
    ∃ t', t.1.push (ofList t.2) i.tag i.args = (t'.1, ofList t'.2) ∧ Resumes l (stream ++ [i]) t' ∧
      scan { limits := l } (ofList (stream ++ [i])) = .ok (t'.1, ofList t'.2) := by
  have happended := h.append i
  obtain ⟨t', hsteps, -, hscan⟩ := scan_ok (t.1, t.2 ++ [i]) happended.recalls
  obtain ⟨q', hq', hlonger⟩ := scan_append t.1 _ rfl hscan
  obtain rfl : t'.2 = q' := by
    rw [← Columns.toList_ofList t'.2, ← Columns.toList_ofList q']
    exact congrArg Columns.toList hq'
  refine ⟨t', ?_, ⟨recalls_of_steps hsteps happended.recalls, fun r ↦ ?_⟩, ?_⟩
  · rw [Optimizer.push, Columns.push_ofList, happended.recalls.scanLast_eq, hscan]
  · rw [← happended.scan_eq r]
    exact (hlonger r).symm
  · rw [h.scan_eq [i]] at hscan
    exact hscan

theorem exists_arriveAll (h : Resumes l stream t) (arrivals : List Arrival) :
    ∃ t', arriveAll (t.1, ofList t.2) arrivals = (t'.1, ofList t'.2) ∧
      Resumes l (stream ++ arrivals.map Arrival.instruction) t' := by
  induction arrivals generalizing stream t with
  | nil => exact ⟨t, rfl, by rwa [List.map_nil, List.append_nil]⟩
  | cons arrival arrivals ih =>
    obtain ⟨t₁, ht₁, h₁⟩ : ∃ t₁, arrive (t.1, ofList t.2) arrival = (t₁.1, ofList t₁.2) ∧
        Resumes l (stream ++ [arrival.instruction]) t₁ := by
      cases arrival with
      | pushed i =>
        obtain ⟨t₁, ht₁, h₁, -⟩ := h.push i
        exact ⟨t₁, ht₁, h₁⟩
      | appended i => exact ⟨_, by rw [arrive, Columns.push_ofList], h.append i⟩
    obtain ⟨t', ht', h'⟩ := ih h₁
    refine ⟨t', ?_, by rwa [List.append_assoc, List.singleton_append] at h'⟩
    rw [← ht', arriveAll, List.foldl_cons, ht₁]
    rfl

theorem scan_eq_arriveAll (hl : l.Valid) (arrivals : List Arrival) (last : Instruction) :
    scan { limits := l } (ofList (arrivals.map Arrival.instruction ++ [last])) =
      .ok (arriveAll ({ limits := l }, .empty) (arrivals ++ [.pushed last])) := by
  obtain ⟨t, ht, h⟩ := exists_arriveAll (resumes_fresh hl) arrivals
  obtain ⟨t', ht', -, hscan⟩ := h.push last
  rw [List.nil_append] at hscan
  rw [hscan, arriveAll, List.foldl_append, List.foldl_cons, List.foldl_nil]
  exact congrArg Except.ok (ht'.symm.trans (congrArg (arrive · (.pushed last)) ht.symm))

theorem scan_eq_pushAll (hl : l.Valid) (is : List Instruction) :
    scan { limits := l } (ofList is) = .ok (pushAll ({ limits := l }, .empty) is) := by
  obtain rfl | ⟨is, last, rfl⟩ := List.eq_nil_or_concat is
  · exact scan_end (q := []) rfl
  · have hscan := scan_eq_arriveAll hl (is.map .pushed) last
    have hid : Arrival.instruction ∘ Arrival.pushed = id := rfl
    rw [← List.map_singleton, ← List.map_append, arriveAll_pushed, List.map_map, hid, List.map_id] at hscan
    rwa [List.concat_eq_append]

/-- Which instructions were appended and which were pushed makes no difference once the last one has been pushed. -/
theorem appended_or_pushed (hl : l.violation? = none) (arrivals : List Arrival) (last : Instruction) :
    let s := arriveAll ({ limits := l }, .empty) (arrivals ++ [.pushed last])
    let t := pushAll ({ limits := l }, .empty) (arrivals.map Arrival.instruction ++ [last])
    s.2 = t.2 ∧ s.1.isMatching = t.1.isMatching ∧ s.1.flush s.2 = t.1.flush t.2 := by
  have hvalid := Limits.violation?_eq_none_iff.1 hl
  intro s t
  have hst : s = t := by
    have hpushed := scan_eq_pushAll hvalid (arrivals.map Arrival.instruction ++ [last])
    exact Except.ok.inj ((scan_eq_arriveAll hvalid arrivals last).symm.trans hpushed)
  rw [hst]
  exact ⟨rfl, rfl, rfl⟩

theorem appended_or_pushed_scattered :
    let s := arriveAll ({}, .empty) (scattered.map .appended ++ [.pushed ⟨.restore, []⟩])
    let t := pushAll ({}, .empty) ((scattered.map .appended).map Arrival.instruction ++ [⟨.restore, []⟩])
    ({} : Limits).violation? = none ∧
      s.2 = t.2 ∧ s.1.isMatching = t.1.isMatching ∧ s.1.flush s.2 = t.1.flush t.2 :=
  ⟨by decide, appended_or_pushed (by decide) _ _⟩

end Optimizer

end DisplayList
