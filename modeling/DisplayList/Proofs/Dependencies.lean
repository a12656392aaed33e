import DisplayList.Proofs.Delivery
import Mathlib.Data.List.Nodup

namespace DisplayList.Builder

open Columns (ofList)

inductive Entry where
  | appended (i : Instruction)
  /-- The resource was asked for, so whatever comes after this may use it. -/
  | required (id : String)

def Entry.instruction? : Entry → Option Instruction
  | appended i => some i
  | required _ => none

def appendedIn (es : List Entry) : List Instruction := es.filterMap Entry.instruction?

def requiredBy : Builder → List String → List Entry
  | _, [] => []
  | b, id :: ids => (b.writtenFor id).map .appended ++ .required id :: requiredBy (b.addDependency id) ids

def splicedBy : Builder → List Entry → List Entry
  | _, [] => []
  | b, .appended i :: es => (b.writtenOf i).map .appended ++ splicedBy (b.splice i) es
  | b, .required id :: es => .required id :: splicedBy b es

/-- The lists that come of calls, each with all that happened to it. No dependency is appended but by asking for it, and
the lists that are appended to others have no sink. -/
inductive Made : BuilderOptions → Option Sink → Builder → List Entry → Prop
  | create (options : BuilderOptions) (sink : Option Sink) : Made options sink (create options sink) []
  | add {options : BuilderOptions} {sink : Option Sink} {b : Builder} {es : List Entry} (made : Made options sink b es)
    {tag : Tag} (htag : tag ≠ .dependency) (args : List Arg) :
    Made options sink (b.add tag args) (es ++ [.appended ⟨tag, args⟩])
  | addDependency {options : BuilderOptions} {sink : Option Sink} {b : Builder} {es : List Entry}
    (made : Made options sink b es) (id : String) :
    Made options sink (b.addDependency id) (es ++ requiredBy b [id])
  | addDependencies {options : BuilderOptions} {sink : Option Sink} {b : Builder} {es : List Entry}
    (made : Made options sink b es) (ids : List String) :
    Made options sink (b.addDependencies ids) (es ++ requiredBy b ids)
  | append {options options' : BuilderOptions} {sink : Option Sink} {b other : Builder} {es es' : List Entry}
    (made : Made options sink b es) (others : Made options' none other es') :
    Made options sink (b.append other) (es ++ splicedBy b es')
  | flush {options : BuilderOptions} {sink : Option Sink} {b b' : Builder} {es : List Entry} {isLast : Bool}
    (made : Made options sink b es) (flushed : b.flush isLast = .ok b') : Made options sink b' es

/-- The dependencies among some instructions announce the given ids, none of them twice. -/
structure Announces (is : List Instruction) (ids : List String) : Prop where
  eq : dependenciesIn is = ids.map announcement
  nodup : ids.Nodup

/-- Whatever was asked for was announced before that. -/
def Announced (es : List Entry) : Prop :=
  ∀ before id after, es = before ++ .required id :: after → announcement id ∈ appendedIn before

structure Lawful (options : BuilderOptions) (sink : Option Sink) (b : Builder) (es : List Entry)
    (parcels : List Parcel) (pending : List Instruction) : Prop where
  holds : b.Holds (batching options sink) sink parcels pending
  order : appendedIn es = parcels.flatMap (·.appended) ++ pending
  delivered : ∀ p ∈ parcels, ∃ ids, Announces p.appended ids
  pending : Announces pending b.dependencies.reverse
  announced : Announced es

section Entries

variable {es es' : List Entry} {e : Entry} {id : String} {i : Instruction}

@[simp]
theorem appendedIn_nil : appendedIn [] = [] := rfl

@[simp]
theorem appendedIn_append (es es' : List Entry) : appendedIn (es ++ es') = appendedIn es ++ appendedIn es' :=
  List.filterMap_append

@[simp]
theorem appendedIn_appended (i : Instruction) (es : List Entry) :
    appendedIn (.appended i :: es) = i :: appendedIn es := rfl

@[simp]
theorem appendedIn_required (id : String) (es : List Entry) :
    appendedIn (.required id :: es) = appendedIn es := rfl

theorem Announced.snoc (h : Announced es) (he : ∀ id, e = .required id → announcement id ∈ appendedIn es) :
    Announced (es ++ [e]) := by
  intro before id after heq
  obtain ⟨rfl, hx, -⟩ | ⟨after', hes, -⟩ := append_cons_eq_concat heq
  · exact he id hx
  · exact h before id after' hes

theorem dependenciesIn_singleton (htag : i.tag ≠ .dependency) : dependenciesIn [i] = [] := by
  simpa [dependenciesIn] using htag

theorem announced?_of_ne (htag : i.tag ≠ .dependency) : announced? i = none := if_neg htag

theorem announced?_announcement (id : String) : announced? (announcement id) = some id := rfl

theorem announcement_mem_iff {is : List Instruction} {ids : List String} (h : Announces is ids) :
    announcement id ∈ is ↔ id ∈ ids := by
  have hmem : announcement id ∈ is ↔ announcement id ∈ dependenciesIn is := by
    simp [dependenciesIn, announcement]
  rw [hmem, h.eq, List.mem_map]
  constructor
  · rintro ⟨id', hid, heq⟩
    simp only [announcement, Instruction.mk.injEq, List.cons.injEq, Arg.name.injEq, and_true, true_and] at heq
    rwa [← heq]
  · intro hid
    exact ⟨id, hid, rfl⟩

end Entries

section Steps

variable {options : BuilderOptions} {sink : Option Sink} {b b' : Builder} {es es' : List Entry}
  {parcels : List Parcel} {pending : List Instruction} {tag : Tag} {args : List Arg} {id : String} {i : Instruction}

def IsLawful (options : BuilderOptions) (sink : Option Sink) (b : Builder) (es : List Entry) : Prop :=
  ∃ parcels pending, Lawful options sink b es parcels pending

theorem Lawful.write (h : Lawful options sink b es parcels pending) (ids : List String)
    (hids : Announces (pending ++ [⟨tag, args⟩]) ids.reverse) :
    IsLawful options sink (add { b with dependencies := ids } tag args) (es ++ [.appended ⟨tag, args⟩]) := by
  have horder : appendedIn (es ++ [.appended ⟨tag, args⟩]) =
      parcels.flatMap (·.appended) ++ (pending ++ [⟨tag, args⟩]) := by
    rw [appendedIn_append, h.order, List.append_assoc]
    rfl
  have hannounced : Announced (es ++ [.appended ⟨tag, args⟩]) := h.announced.snoc nofun
  obtain ⟨hadd, hdeps⟩ | ⟨m, -, hadd, hdeps⟩ := (h.holds.remember ids).add tag args
  · exact ⟨_, _, hadd, horder, h.delivered, by rwa [hdeps], hannounced⟩
  · refine ⟨_, _, hadd, ?_, ?_, ?_, hannounced⟩
    · rw [horder]
      simp
    · rw [List.forall_mem_append, List.forall_mem_singleton]
      exact ⟨h.delivered, _, hids⟩
    · rw [hdeps]
      exact ⟨rfl, .nil⟩

theorem Lawful.add (h : Lawful options sink b es parcels pending) (htag : tag ≠ .dependency) (args : List Arg) :
    IsLawful options sink (b.add tag args) (es ++ [.appended ⟨tag, args⟩]) := by
  refine h.write b.dependencies ⟨?_, h.pending.nodup⟩
  rw [dependenciesIn_append, dependenciesIn_singleton htag, List.append_nil, h.pending.eq]

theorem Lawful.announce (h : Lawful options sink b es parcels pending) (hid : id ∉ b.dependencies) :
    IsLawful options sink (Builder.add { b with dependencies := id :: b.dependencies } .dependency [.name id])
      (es ++ [.appended (announcement id)]) := by
  refine h.write (id :: b.dependencies) ⟨?_, ?_⟩
  · rw [dependenciesIn_append, h.pending.eq, List.reverse_cons, List.map_append]
    rfl
  · rw [List.nodup_reverse, List.nodup_cons]
    exact ⟨hid, List.nodup_reverse.1 h.pending.nodup⟩

theorem Lawful.mem_appendedIn (h : Lawful options sink b es parcels pending) (hid : id ∈ b.dependencies) :
    announcement id ∈ appendedIn es := by
  rw [h.order, List.mem_append, announcement_mem_iff h.pending, List.mem_reverse]
  exact .inr hid

theorem Lawful.require (h : Lawful options sink b es parcels pending) (hid : announcement id ∈ appendedIn es) :
    Lawful options sink b (es ++ [.required id]) parcels pending where
  holds := h.holds
  order := by simp [h.order]
  delivered := h.delivered
  pending := h.pending
  announced := by
    apply h.announced.snoc
    intro id' heq
    cases heq
    exact hid

theorem IsLawful.splice (h : IsLawful options sink b es)
    (hi : i.tag ≠ .dependency ∨ ∃ id, i = announcement id) :
    IsLawful options sink (b.splice i) (es ++ (b.writtenOf i).map .appended) ∧
      (∀ id, i = announcement id → announcement id ∈ appendedIn (es ++ (b.writtenOf i).map .appended)) := by
  obtain ⟨parcels, pending, h⟩ := h
  obtain htag | ⟨id, rfl⟩ := hi
  · rw [Builder.splice, writtenOf, announced?_of_ne htag]
    refine ⟨h.add htag i.args, ?_⟩
    rintro id rfl
    exact absurd rfl htag
  · rw [Builder.splice, writtenOf, announced?_announcement]
    dsimp only
    split
    · rename_i hid
      rw [List.map_nil, List.append_nil]
      refine ⟨⟨_, _, h⟩, fun id' heq ↦ ?_⟩
      rw [← heq]
      exact h.mem_appendedIn hid
    · rename_i hid
      refine ⟨h.announce hid, fun id' heq ↦ ?_⟩
      rw [← heq]
      simp

theorem IsLawful.addDependency (h : IsLawful options sink b es) (id : String) :
    IsLawful options sink (b.addDependency id) (es ++ ((b.writtenFor id).map .appended ++ [.required id])) := by
  obtain ⟨parcels, pending, h⟩ := h
  rw [Builder.addDependency, writtenFor]
  split
  · rename_i hid
    exact ⟨_, _, h.require (h.mem_appendedIn hid)⟩
  · rename_i hid
    obtain ⟨parcels', pending', h'⟩ := h.announce hid
    have hmem : announcement id ∈ appendedIn (es ++ [.appended (announcement id)]) := by simp
    have hrequire := h'.require hmem
    rw [List.append_assoc] at hrequire
    exact ⟨_, _, hrequire⟩

theorem IsLawful.addDependencies (h : IsLawful options sink b es) (ids : List String) :
    IsLawful options sink (b.addDependencies ids) (es ++ requiredBy b ids) := by
  induction ids generalizing b es with
  | nil =>
    rw [requiredBy, List.append_nil]
    exact h
  | cons id ids ih =>
    have hrest := ih (h.addDependency id)
    rw [List.append_assoc, List.append_assoc, List.singleton_append] at hrest
    exact hrest

theorem IsLawful.spliceAll {rest : List Entry} (done : List Entry) (h : IsLawful options sink b es)
    (hdone : ∀ id, announcement id ∈ appendedIn done → announcement id ∈ appendedIn es)
    (hplain : ∀ i ∈ appendedIn rest, i.tag ≠ .dependency ∨ ∃ id, i = announcement id)
    (hannounced : Announced (done ++ rest)) :
    IsLawful options sink ((appendedIn rest).foldl Builder.splice b) (es ++ splicedBy b rest) := by
  induction rest generalizing b es done with
  | nil =>
    rw [splicedBy, List.append_nil]
    exact h
  | cons e rest ih =>
    rw [← List.singleton_append, ← List.append_assoc] at hannounced
    cases e with
    | appended i =>
      obtain ⟨h', hi⟩ := h.splice (hplain i List.mem_cons_self)
      rw [splicedBy, ← List.append_assoc]
      refine ih (done ++ [.appended i]) h' ?_ (fun j hj ↦ hplain j (List.mem_cons_of_mem i hj)) hannounced
      intro id hid
      rw [appendedIn_append, List.mem_append] at hid
      obtain hid | hid := hid
      · rw [appendedIn_append, List.mem_append]
        exact .inl (hdone id hid)
      · exact hi id (List.mem_singleton.1 hid).symm
    | required id =>
      obtain ⟨parcels, pending, h⟩ := h
      have hid := hdone id (hannounced done id rest (by simp))
      have hrest := ih (done ++ [.required id]) ⟨_, _, h.require hid⟩ (by simpa using hdone) hplain hannounced
      rw [List.append_assoc] at hrest
      exact hrest

theorem Lawful.toList_queue (h : Lawful options none b es parcels pending) : b.queue.toList = appendedIn es := by
  obtain ⟨-, hqueue⟩ : b.optimizer = none ∧ b.queue = ofList pending := h.holds.pends
  rw [hqueue, Columns.toList_ofList, h.order, h.holds.kept rfl]
  rfl

theorem Lawful.plain (h : Lawful options none b es parcels pending) :
    ∀ i ∈ appendedIn es, i.tag ≠ .dependency ∨ ∃ id, i = announcement id := by
  intro i hi
  rw [h.order, h.holds.kept rfl, List.flatMap_nil, List.nil_append] at hi
  by_cases htag : i.tag = .dependency
  · have hmem : i ∈ dependenciesIn pending := List.mem_filter.2 ⟨hi, by simpa using htag⟩
    rw [h.pending.eq] at hmem
    obtain ⟨id, -, rfl⟩ := List.mem_map.1 hmem
    exact .inr ⟨id, rfl⟩
  · exact .inl htag

theorem Made.isLawful (h : Made options sink b es) : IsLawful options sink b es := by
  induction h with
  | create options sink =>
    exact ⟨[], [], holds_create options sink, rfl, nofun, ⟨rfl, .nil⟩, fun before id after heq ↦ by simp at heq⟩
  | add _ htag args ih =>
    obtain ⟨parcels, pending, h⟩ := ih
    exact h.add htag args
  | addDependency _ id ih => exact ih.addDependencies [id]
  | addDependencies _ ids ih => exact ih.addDependencies ids
  | append _ _ ih ih' =>
    obtain ⟨parcels, pending, h'⟩ := ih'
    rw [Builder.append, h'.toList_queue]
    exact ih.spliceAll [] (by simp) h'.plain h'.announced
  | flush _ flushed ih =>
    obtain ⟨parcels, pending, h⟩ := ih
    obtain ⟨s, hs, rfl⟩ := flush_eq_ok flushed
    obtain ⟨m, -, hholds⟩ := h.holds.deliver hs _
    refine ⟨_, _, hholds, by simp [h.order], ?_, ⟨rfl, .nil⟩, h.announced⟩
    rw [List.forall_mem_append, List.forall_mem_singleton]
    exact ⟨h.delivered, _, h.pending⟩

end Steps

section Cuts

variable {batches : Option Limits} {l : Limits} {s t : List Instruction} {cut : List Instruction × List Instruction}
  {cuts : List (List Instruction × List Instruction)} {i : Instruction} {id : String}

/-- Either an instruction that stays, or a stretch without a dependency that gave way to a form without one. Under
limits that make sense it is a stretch that has this form. -/
def IsCut (batches : Option Limits) (cut : List Instruction × List Instruction) : Prop :=
  (∃ i, cut = ([i], [i])) ∨ ∃ l, batches = some l ∧ dependenciesIn cut.1 = [] ∧ dependenciesIn cut.2 = [] ∧
    (l.violation? = none → cut.1 ≠ [] ∧ Rewrite l cut.1 cut.2)

def IsCutting (batches : Option Limits) (s t : List Instruction) (cuts : List (List Instruction × List Instruction)) :
    Prop :=
  (∀ cut ∈ cuts, IsCut batches cut) ∧ cuts.flatMap (·.1) = s ∧ cuts.flatMap (·.2) = t

theorem dependenciesIn_of_batched (h : ∀ i ∈ s, i.tag ∈ batchedTags) : dependenciesIn s = [] := by
  have hdependency : Tag.dependency ∉ batchedTags := by decide
  rw [dependenciesIn_eq_nil_iff]
  intro i hi htag
  exact hdependency (htag ▸ h i hi)

theorem dependenciesIn_of_rewrite (h : Rewrite l s t) :
    (∃ i, s = [i] ∧ t = [i]) ∨ dependenciesIn s = [] ∧ dependenciesIn t = [] := by
  obtain hsame | ⟨hs, ht⟩ := h.same_or_batched
  · exact .inl hsame
  · exact .inr ⟨dependenciesIn_of_batched hs, dependenciesIn_of_batched ht⟩

theorem isCutting_refl (batches : Option Limits) (s : List Instruction) :
    IsCutting batches s s (s.map fun i ↦ ([i], [i])) := by
  refine ⟨?_, by simp [List.flatMap_map], by simp [List.flatMap_map]⟩
  intro cut hcut
  obtain ⟨i, -, rfl⟩ := List.mem_map.1 hcut
  exact .inl ⟨i, rfl⟩

theorem IsCutting.append {s' t' : List Instruction} {cuts' : List (List Instruction × List Instruction)}
    (h : IsCutting batches s t cuts) (h' : IsCutting batches s' t' cuts') :
    IsCutting batches (s ++ s') (t ++ t') (cuts ++ cuts') := by
  obtain ⟨hcuts, rfl, rfl⟩ := h
  obtain ⟨hcuts', rfl, rfl⟩ := h'
  refine ⟨?_, List.flatMap_append, List.flatMap_append⟩
  rw [List.forall_mem_append]
  exact ⟨hcuts, hcuts'⟩

/-- Between the dependencies, which are where they were, anything may have become of a stretch. -/
theorem exists_cutting (hl : l.violation? ≠ none) (h : dependenciesIn t = dependenciesIn s) :
    ∃ cuts, IsCutting (some l) s t cuts := by
  generalize hds : dependenciesIn s = ds at h
  have hcut {s t : List Instruction} (hs : dependenciesIn s = []) (ht : dependenciesIn t = []) :
      IsCutting (some l) s t [(s, t)] := by
    refine ⟨?_, by simp, by simp⟩
    rw [List.forall_mem_singleton]
    exact .inr ⟨l, rfl, hs, ht, fun hv ↦ absurd hv hl⟩
  induction ds generalizing s t with
  | nil => exact ⟨_, hcut hds h⟩
  | cons d ds ih =>
    obtain ⟨s₁, s₂, rfl, hs₁, -, hs₂⟩ := List.filter_eq_cons_iff.1 hds
    obtain ⟨t₁, t₂, rfl, ht₁, -, ht₂⟩ := List.filter_eq_cons_iff.1 h
    obtain ⟨cuts, hrest⟩ := ih hs₂ ht₂
    have hfirst := hcut (List.filter_eq_nil_iff.2 hs₁) (List.filter_eq_nil_iff.2 ht₁)
    exact ⟨_, hfirst.append ((isCutting_refl (some l) [d]).append hrest)⟩

theorem Forms.exists_cutting (h : Forms batches s t) : ∃ cuts, IsCutting batches s t cuts := by
  cases batches with
  | none =>
    obtain rfl : t = s := h
    exact ⟨_, isCutting_refl none t⟩
  | some l =>
    obtain ⟨hdeps, hdraws⟩ := h
    by_cases hl : l.violation? = none
    · obtain ⟨cuts, hcuts, hs, ht⟩ := hdraws hl
      refine ⟨cuts, ?_, hs, ht⟩
      rintro ⟨s, t⟩ hcut
      obtain ⟨hne, hrewrite⟩ := hcuts _ hcut
      obtain ⟨i, rfl, rfl⟩ | ⟨hs, ht⟩ := dependenciesIn_of_rewrite hrewrite
      · exact .inl ⟨i, rfl⟩
      · exact .inr ⟨l, rfl, hs, ht, fun _ ↦ ⟨hne, hrewrite⟩⟩
    · exact Builder.exists_cutting hl hdeps

theorem Pends.forms {o : Option Optimizer} {queue : Columns} {pending : List Instruction}
    (h : Pends batches o queue pending) : ∃ q, queue = ofList q ∧ Forms batches pending q := by
  cases batches with
  | none =>
    obtain ⟨-, hqueue⟩ := h
    exact ⟨pending, hqueue, rfl⟩
  | some l =>
    obtain ⟨o, q, -, hqueue, -, hdeps, hpush⟩ := h
    refine ⟨q, hqueue, hdeps, fun hl ↦ ?_⟩
    obtain ⟨s, hs, -, -, hdraws⟩ := Optimizer.pushAll_draws
      (Optimizer.atEnd_fresh (Limits.violation?_eq_none_iff.1 hl)) rfl (.nil l) pending
    have hs₂ : queue = ofList s.2 := congrArg Prod.snd ((hpush hl).symm.trans hs)
    have hq : q = s.2 := by rw [← Columns.toList_ofList q, ← hqueue, hs₂, Columns.toList_ofList]
    rw [hq]
    exact hdraws.draws

theorem mem_of_isCut (h : IsCut batches cut) (hid : announcement id ∈ cut.1) :
    cut = ([announcement id], [announcement id]) := by
  obtain ⟨i, rfl⟩ | ⟨l, -, hsilent, -⟩ := h
  · rw [List.mem_singleton.1 hid]
  · exact absurd rfl (dependenciesIn_eq_nil_iff.1 hsilent _ hid)

end Cuts

/-- The `n`-th instruction, counted from zero, is part of the stretch that is cut off after those of `front`. -/
def WentInto (n : Nat) (front : List (List Instruction × List Instruction))
    (cut : List Instruction × List Instruction) : Prop :=
  (front.flatMap (·.1)).length ≤ n ∧ n < ((front ++ [cut]).flatMap (·.1)).length

/-- What is certain of the dependencies of a list that was given `sink` and has delivered `ms`. -/
structure KeepsDependencies (options : BuilderOptions) (sink : Option Sink) (b : Builder) (es : List Entry)
    (ms : List Message) : Prop where
  sent : b.sink = sink.map (·.enqueueAll ms)
  kept : sink = none → ms = []
  aligned : b.queue.Aligned ∧ ∀ m ∈ ms, m.chunk.columns.Aligned
  remembered : Announces b.queue.toList b.dependencies.reverse
  delivered : ∀ m ∈ ms, ∃ ids, Announces m.chunk.columns.toList ids
  /-- What was appended after an id was asked for went into a stretch that comes after an announcement of the id. -/
  preceded : ∃ cuts, IsCutting (batching options sink) (appendedIn es)
      (ms.flatMap (·.chunk.columns.toList) ++ b.queue.toList) cuts ∧
    ∀ before id mid i after, es = before ++ .required id :: (mid ++ .appended i :: after) →
      ∀ front cut back, cuts = front ++ cut :: back → WentInto (appendedIn (before ++ mid)).length front cut →
        announcement id ∈ front.flatMap (·.2)

section Law

variable {batches : Option Limits} {options : BuilderOptions} {sink : Option Sink} {b : Builder} {es : List Entry}
  {s t : List Instruction} {cuts : List (List Instruction × List Instruction)} {ids : List String}
  {parcels : List Parcel} {pending : List Instruction}

theorem Forms.announces (h : Forms batches s t) (hs : Announces s ids) : Announces t ids := by
  refine ⟨?_, hs.nodup⟩
  rw [← hs.eq]
  cases batches with
  | none => rw [show t = s from h]
  | some l => exact h.1

theorem Parcel.Delivers.announces {p : Parcel} (h : p.Delivers batches) (hp : Announces p.appended ids) :
    Announces p.chunk.columns.toList ids := by
  obtain ⟨q, hq, hforms⟩ := h.columns
  rw [hq, Columns.toList_ofList]
  exact hforms.announces hp

theorem exists_cutting_of_parcels (h : ∀ p ∈ parcels, p.Delivers batches) :
    ∃ cuts, IsCutting batches (parcels.flatMap (·.appended)) (parcels.flatMap (·.chunk.columns.toList)) cuts := by
  induction parcels with
  | nil => exact ⟨[], nofun, rfl, rfl⟩
  | cons p parcels ih =>
    obtain ⟨q, hq, hforms⟩ := (h p List.mem_cons_self).columns
    obtain ⟨cuts, hcuts⟩ := hforms.exists_cutting
    obtain ⟨cuts', hcuts'⟩ := ih fun p' hp' ↦ h p' (List.mem_cons_of_mem p hp')
    refine ⟨cuts ++ cuts', ?_⟩
    rw [List.flatMap_cons, List.flatMap_cons, hq, Columns.toList_ofList]
    exact hcuts.append hcuts'

theorem IsCutting.preceded {stream out more : List Instruction} {id : String}
    {front back : List (List Instruction × List Instruction)} {cut : List Instruction × List Instruction} {n : Nat}
    (h : IsCutting batches (stream ++ more) out (front ++ cut :: back)) (hid : announcement id ∈ stream)
    (hn : stream.length ≤ n) (hcut : WentInto n front cut) : announcement id ∈ front.flatMap (·.2) := by
  obtain ⟨hcuts, hs, -⟩ := h
  obtain ⟨-, hlast⟩ := hcut
  have hfront {c : List Instruction × List Instruction} (hc : c ∈ front) (hmem : announcement id ∈ c.1) :
      announcement id ∈ front.flatMap (·.2) := by
    have hc' := mem_of_isCut (hcuts c (List.mem_append_left _ hc)) hmem
    refine List.mem_flatMap.2 ⟨c, hc, ?_⟩
    rw [hc']
    exact List.mem_singleton_self _
  obtain ⟨k, hk, hget⟩ := List.getElem_of_mem hid
  rw [List.flatMap_append, List.length_append, List.flatMap_singleton] at hlast
  rw [List.flatMap_append, List.flatMap_cons] at hs
  obtain hlt | hge := Nat.lt_or_ge k (front.flatMap (·.1)).length
  · have hmem : announcement id ∈ front.flatMap (·.1) := by
      have := congrArg (·[k]?) hs
      simp only [List.getElem?_append_left hlt, List.getElem?_append_left hk] at this
      rw [List.getElem?_eq_getElem hk, hget] at this
      exact List.mem_of_getElem? this
    obtain ⟨c, hc, hmem⟩ := List.mem_flatMap.1 hmem
    exact hfront hc hmem
  · -- The announcement would be in the same cut as what was appended later.
    have hmem : announcement id ∈ cut.1 := by
      have := congrArg (·[k]?) hs
      simp only [List.getElem?_append_right hge, List.getElem?_append_left hk] at this
      rw [List.getElem?_append_left (by omega), List.getElem?_eq_getElem hk, hget] at this
      exact List.mem_of_getElem? this
    have hcut := mem_of_isCut (hcuts cut (List.mem_append_right _ List.mem_cons_self)) hmem
    rw [hcut] at hlast
    simp only [List.length_singleton] at hlast
    omega

/-- The dependencies of a list, whatever its sink and its options, after any calls. -/
theorem announced_before_use (h : Made options sink b es) :
    ∃ ms, KeepsDependencies options sink b es ms := by
  obtain ⟨parcels, pending, h⟩ := h.isLawful
  obtain ⟨q, hq, hforms⟩ := h.holds.pends.forms
  obtain ⟨cuts, hcuts⟩ := exists_cutting_of_parcels h.holds.delivers
  obtain ⟨cuts', hcuts'⟩ := hforms.exists_cutting
  have hcutting := hcuts.append hcuts'
  have hflatMap : (parcels.map (·.message)).flatMap (·.chunk.columns.toList) =
      parcels.flatMap (·.chunk.columns.toList) := by
    rw [List.flatMap_map]
    rfl
  refine ⟨parcels.map (·.message), h.holds.sent, fun hnone ↦ by rw [h.holds.kept hnone]; rfl, ⟨?_, ?_⟩, ?_, ?_,
    cuts ++ cuts', ?_, ?_⟩
  · rw [hq]
    exact Columns.aligned_ofList q
  · intro m hm
    obtain ⟨p, hp, rfl⟩ := List.mem_map.1 hm
    exact (h.holds.delivers p hp).aligned
  · rw [hq, Columns.toList_ofList]
    exact hforms.announces h.pending
  · intro m hm
    obtain ⟨p, hp, rfl⟩ := List.mem_map.1 hm
    obtain ⟨ids, hids⟩ := h.delivered p hp
    exact ⟨ids, (h.holds.delivers p hp).announces hids⟩
  · rw [hflatMap, h.order, hq, Columns.toList_ofList]
    exact hcutting
  · intro before id mid i after hes front cut back heq hcut
    have hid := h.announced before id _ hes
    have horder : appendedIn before ++ appendedIn (mid ++ .appended i :: after) =
        parcels.flatMap (·.appended) ++ pending := by
      rw [← h.order, hes]
      simp
    rw [← horder, heq] at hcutting
    refine hcutting.preceded hid ?_ hcut
    rw [appendedIn_append, List.length_append]
    exact Nat.le_add_right _ _

theorem announced_before_use_spliced : ∃ b es,
    Made { chunking := ⟨3, 0⟩ } (some (.record [])) b es ∧
      ∃ ms, KeepsDependencies { chunking := ⟨3, 0⟩ } (some (.record [])) b es ms := by
  have other := ((((Made.create {} none).addDependency "font").add (by decide : Tag.showText ≠ .dependency) []).add
    (by decide : Tag.showText ≠ .dependency) []).addDependency "font"
  have made := (((Made.create { chunking := ⟨3, 0⟩ } (some (.record []))).addDependencies ["font", "image"]).append
    other).append other
  exact ⟨_, _, made, announced_before_use made⟩

end Law

end DisplayList.Builder
