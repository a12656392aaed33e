import DisplayList.Proofs.Atlas
import DisplayList.Proofs.Meaning

namespace DisplayList

open Columns (ofList)

variable {l : Limits} {q : List Instruction} {first stop n i : Nat} {tag : Tag} {args : List Arg} {gs : List Quartet}

section Groups

theorem mem_quartets {g : Quartet} : g ∈ quartets q i n ↔ ∃ k < n, Quartet.ofIndex q (i + 4 * k) = g := by
  simp [quartets]

theorem mem_wrappers {w : Wrapper} : w ∈ wrappers q i n ↔ ∃ k < n, Wrapper.ofIndex q (i + 5 * k) = w := by
  simp [wrappers]

theorem quartets_succ (q : List Instruction) (i n : Nat) :
    quartets q i (n + 1) = Quartet.ofIndex q i :: quartets q (i + 4) n := by
  rw [Nat.add_comm, quartets_add]
  rfl

theorem wrappers_succ (q : List Instruction) (i n : Nat) :
    wrappers q i (n + 1) = Wrapper.ofIndex q i :: wrappers q (i + 5) n := by
  rw [Nat.add_comm, wrappers_add]
  rfl

theorem transforms_eq (h : first + 4 * n ≤ q.length) :
    (ofList q).argsEvery (first + 1) 4 n = .ok ((quartets q first n).map (·.transform)) := by
  rw [argsEvery_eq fun k hk ↦ by omega, quartets, List.map_map]
  simp only [Function.comp_def, Quartet.ofIndex, Nat.add_right_comm]

theorem paints_eq (h : first + 4 * n ≤ q.length) :
    (ofList q).argsEvery (first + 2) 4 n = .ok ((quartets q first n).map (·.paint)) := by
  rw [argsEvery_eq fun k hk ↦ by omega, quartets, List.map_map]
  simp only [Function.comp_def, Quartet.ofIndex, Nat.add_right_comm]

theorem origins_eq (gs : List Quartet) : origins (gs.map (·.transform)) = gs.flatMap Quartet.position := by
  rw [origins, List.flatMap_map]
  rfl

theorem repeatArgs_eq (g : Quartet) (gs : List Quartet) :
    repeatArgs (g.paint.headD .null) ((g :: gs).map (·.transform)) = g.repeated gs := by
  rw [repeatArgs, origins_eq]
  rfl

theorem mapM_firstImage? (paints : List (List Arg)) :
    (paints.mapM firstImage? = none ∧ ∃ paint ∈ paints, firstImage? paint = none) ∨
      ∃ images, paints.mapM firstImage? = some images ∧ paints.map firstImage? = images.map some := by
  induction paints with
  | nil => exact .inr ⟨[], rfl, rfl⟩
  | cons paint paints ih =>
    rw [List.mapM_cons]
    cases hp : firstImage? paint with
    | none => exact .inl ⟨rfl, paint, List.mem_cons_self, hp⟩
    | some image =>
      obtain ⟨ih, paint', hmem, hp'⟩ | ⟨images, ih, hmap⟩ := ih
      · exact .inl ⟨by rw [ih]; rfl, paint', List.mem_cons_of_mem _ hmem, hp'⟩
      · exact .inr ⟨image :: images, by rw [ih]; rfl, by rw [List.map_cons, hp, hmap]; rfl⟩

end Groups

namespace Pattern

section Edits

theorem leave_eq {p : Pattern} (c : Columns) (h : first ≤ stop) :
    p.leave c first stop = .ok ⟨c, stop - (stop - first) % p.period⟩ := by
  rw [leave, distance_ok h, ok_bind, distance_ok ((Nat.mod_le _ _).trans (Nat.sub_le _ _))]
  rfl

theorem collapse_eq (h : first + 4 * n ≤ q.length) :
    collapse (ofList q) first n tag args =
      .ok ⟨ofList (q.take first ++ [⟨tag, args⟩] ++ q.drop (first + 4 * n)), first + 1⟩ := by
  have hpre : (q.take first).length = first := by rw [List.length_take]; omega
  have hmid : (stretch q first (first + 4 * n)).length = 4 * n := by rw [length_stretch h]; omega
  have hq : q.take first ++ stretch q first (first + 4 * n) ++ q.drop (first + 4 * n) = q := by
    rw [take_append_stretch (Nat.le_add_right _ _), List.take_append_drop]
  have hr := Columns.replaceIn_ofList (q.take first) (stretch q first (first + 4 * n)) (q.drop (first + 4 * n)) tag args
  rw [hpre, hmid, hq] at hr
  rw [collapse, hr, List.append_assoc]
  rfl

end Edits

/-- A stretch of the queue, from `start` to `next`, gives way to a form of it, and scanning goes on after that. The
stretch begins with the run, or with the text before it that the run joins. -/
structure Gives (l : Limits) (q : List Instruction) (first stop : Nat) (b : Batching) (start next : Nat)
    (form : List Instruction) : Prop where
  columns : b.columns = ofList (q.take start ++ form ++ q.drop next)
  resume : b.resume = start + form.length
  draws : Draws l (stretch q start next) form
  progress : first < next
  within : next ≤ stop
  joins : start = first ∨
    start + 4 = first ∧ (stretch q start first).map (·.tag) = textEnd

theorem Gives.batching {b : Batching} {start next : Nat} {form : List Instruction}
    (h : Gives l q first stop b start next form) :
    b = ⟨ofList (q.take start ++ form ++ q.drop next), start + form.length⟩ := by
  rw [← h.columns, ← h.resume]

theorem Gives.length_form_le {b : Batching} {start next : Nat} {form : List Instruction}
    (h : Gives l q first stop b start next form) (hq : stop ≤ q.length) :
    start + form.length ≤ (q.take start ++ form ++ q.drop next).length := by
  have hprogress := h.progress
  have hwithin := h.within
  have hjoins := h.joins
  rw [List.length_append, List.length_append, List.length_take]
  omega

theorem Gives.rest_lt {b : Batching} {start next : Nat} {form : List Instruction}
    (h : Gives l q first stop b start next form) (hq : stop ≤ q.length) :
    (q.take start ++ form ++ q.drop next).length - (start + form.length) < q.length - first := by
  have hprogress := h.progress
  have hwithin := h.within
  have hjoins := h.joins
  rw [List.length_append, List.length_append, List.length_take, List.length_drop]
  omega

theorem gives_leave {p : Pattern} (l : Limits) (h : first + p.period ≤ stop) (hq : stop ≤ q.length) :
    Gives l q first stop ⟨ofList q, stop - (stop - first) % p.period⟩ first (stop - (stop - first) % p.period)
      (stretch q first (stop - (stop - first) % p.period)) := by
  have hmod := Nat.mod_lt (stop - first) p.period_pos
  have hle : first < stop - (stop - first) % p.period := by omega
  refine ⟨?_, ?_, .refl _ _, hle, Nat.sub_le _ _, .inl rfl⟩
  · rw [take_append_stretch hle.le, List.take_append_drop]
  · rw [length_stretch (by omega)]
    dsimp only
    omega

theorem gives_collapse {p : Pattern} (hp : p.group = quartet tag) (h : p.IsRun q first stop) {batched : Instruction}
    (hn : 0 < n) (hstop : first + 4 * n ≤ stop)
    (hr : Draws l ((quartets q first n).flatMap (Quartet.instructions tag)) [batched]) :
    Gives l q first stop ⟨ofList (q.take first ++ [batched] ++ q.drop (first + 4 * n)), first + 1⟩ first (first + 4 * n)
      [batched] := by
  refine ⟨rfl, rfl, ?_, by omega, hstop, .inl rfl⟩
  rwa [stretch_eq_quartets hp h.tags hstop]

theorem offset_eq (p : Pattern) {o : Nat} (ho : o < p.period) (first k : Nat) :
    (first + p.period * k + o - first) % p.period = o := by
  rw [Nat.add_assoc, Nat.add_sub_cancel_left, Nat.mul_add_mod, Nat.mod_eq_of_lt ho]

end Pattern

end DisplayList
