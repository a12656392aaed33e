import DisplayList.Proofs.Windows

namespace DisplayList

open Columns (ofList)
open Relation (ReflTransGen)

/-- Where a listed buffer is from. -/
inductive Listing where
  | given (t : Transfer)
  | packed (atlas : Atlas)

namespace Listing

def transfer : Listing → Transfer
  | given t => t
  | packed atlas => ⟨none, atlas.image.data⟩

def given? : Listing → Option Transfer
  | given t => some t
  | packed _ => none

end Listing

def transfersIn (is : List Instruction) : List Transfer := is.filterMap Instruction.transfer?

/-- The listings are what `ts` lists. Apart from atlases they are among `base`, and none of those is listed twice. -/
structure Lists (l : Limits) (base ts : List Transfer) (listings : List Listing) : Prop where
  transfers : ts = listings.map Listing.transfer
  given : (listings.filterMap Listing.given?).Sublist base
  packed : ∀ atlas, .packed atlas ∈ listings → ∃ items, Atlas.pack items l.maxAtlasWidth l.atlasPadding = .ok atlas

section Listings

variable {l : Limits} {q q' is js : List Instruction} {base base' ts ts' : List Transfer}
  {listings listings' : List Listing} {i : Instruction}

@[simp]
theorem transfersIn_append (is js : List Instruction) : transfersIn (is ++ js) = transfersIn is ++ transfersIn js :=
  List.filterMap_append

theorem transfersIn_cons (i : Instruction) (is : List Instruction) :
    transfersIn (i :: is) = i.transfer?.toList ++ transfersIn is := by
  rw [transfersIn, List.filterMap_cons]
  cases i.transfer? <;> rfl

theorem lists_refl (l : Limits) (base : List Transfer) : Lists l base base (base.map .given) where
  transfers := by simp [Listing.transfer, Function.comp_def]
  given := by simp [List.filterMap_map, Function.comp_def, Listing.given?]
  packed atlas h := by simp at h

theorem Lists.append (h : Lists l base ts listings) (h' : Lists l base' ts' listings') :
    Lists l (base ++ base') (ts ++ ts') (listings ++ listings') where
  transfers := by rw [h.transfers, h'.transfers, List.map_append]
  given := by
    rw [List.filterMap_append]
    exact h.given.append h'.given
  packed atlas hmem := by
    obtain hmem | hmem := List.mem_append.1 hmem
    · exact h.packed atlas hmem
    · exact h'.packed atlas hmem

theorem Lists.replace {front mid mid' back : List Transfer} (h : Lists l base (front ++ mid ++ back) listings)
    (hmid : ∀ ls, Lists l (ls.filterMap Listing.given?) mid ls →
      ∃ new, Lists l (ls.filterMap Listing.given?) mid' new) :
    ∃ listings', Lists l base (front ++ mid' ++ back) listings' := by
  obtain ⟨rest, last, rfl, hrest, hlast⟩ := List.append_eq_map_iff.1 h.transfers
  obtain ⟨first, ls, rfl, hfirst, hls⟩ := List.append_eq_map_iff.1 hrest.symm
  obtain ⟨new, hnew⟩ := hmid ls ⟨hls.symm, .refl _, fun atlas hmem ↦ h.packed atlas (by simp [hmem])⟩
  have hgiven := h.given
  rw [List.filterMap_append, List.filterMap_append] at hgiven
  refine ⟨first ++ new ++ last, ?_, ?_, ?_⟩
  · rw [hnew.transfers, List.map_append, List.map_append, hfirst, hlast]
  · rw [List.filterMap_append, List.filterMap_append]
    exact (((List.Sublist.refl _).append hnew.given).append (.refl _)).trans hgiven
  · intro atlas hmem
    simp only [List.mem_append] at hmem
    obtain (hmem | hmem) | hmem := hmem
    · exact h.packed atlas (by simp [hmem])
    · exact hnew.packed atlas hmem
    · exact h.packed atlas (by simp [hmem])

theorem IsBatch.lists (h : IsBatch l i) (base : List Transfer) : ∃ new, Lists l base i.transfer?.toList new := by
  cases h with
  | imageRepeat | maskRepeat | maskGroup => exact ⟨[], rfl, List.nil_sublist _, by simp⟩
  | inlineGroup items atlas packed =>
    by_cases hcached : atlas.image.cached
    · refine ⟨[], ?_, List.nil_sublist _, by simp⟩
      simp [Instruction.transfer?, Tag.handsOver, firstImage?, Arg.image?, hcached]
    · refine ⟨[.packed atlas], ?_, List.nil_sublist _, ?_⟩
      · simp [Instruction.transfer?, Tag.handsOver, firstImage?, Arg.image?, hcached, Listing.transfer,
          Tag.paintInlineImageGroup]
      · intro atlas' hmem
        cases List.mem_singleton.1 hmem
        exact ⟨items, packed⟩

theorem Edit.lists (hedit : Edit l q q') (h : Lists l base (transfersIn q) listings) :
    ∃ listings', Lists l base (transfersIn q') listings' := by
  cases hedit with
  | batch pre mid post i batch =>
    rw [transfersIn_append, transfersIn_append] at h
    rw [transfersIn_append, transfersIn_cons, ← List.append_assoc]
    exact h.replace fun ls _ ↦ batch.lists _
  | join pre mid kept post _ part =>
    rw [transfersIn_append, transfersIn_append] at h
    rw [transfersIn_append, transfersIn_append]
    apply h.replace
    intro ls hls
    have hpart : (transfersIn kept).Sublist (transfersIn mid) := part.filterMap _
    rw [hls.transfers, List.sublist_map_iff] at hpart
    obtain ⟨new, hnew, htransfers⟩ := hpart
    exact ⟨new, htransfers, hnew.filterMap _, fun atlas hmem ↦ hls.packed atlas (hnew.subset hmem)⟩
  | retag pre post i =>
    rw [transfersIn_append, transfersIn_cons, ← List.append_assoc] at h
    rw [transfersIn_append, transfersIn_cons, ← List.append_assoc]
    exact h.replace fun ls _ ↦ ⟨[], rfl, List.nil_sublist _, by simp⟩

theorem lists_of_edits (h : ReflTransGen (Edit l) q q') :
    ∃ listings, Lists l (transfersIn q) (transfersIn q') listings := by
  induction h with
  | refl => exact ⟨_, lists_refl l _⟩
  | tail _ hedit ih =>
    obtain ⟨listings, hlists⟩ := ih
    exact hedit.lists hlists

theorem Lists.owners_sublist (h : Lists l base ts listings) :
    (ts.filterMap (·.owner)).Sublist (base.filterMap (·.owner)) := by
  have howners : ts.filterMap (·.owner) = (listings.filterMap Listing.given?).filterMap (·.owner) := by
    rw [h.transfers, List.filterMap_map, List.filterMap_filterMap]
    congr 1
    funext listing
    cases listing <;> rfl
  rw [howners]
  exact h.given.filterMap _

theorem Lists.mem_base (h : Lists l base ts listings) {t : Transfer} (ht : t ∈ ts) {id : String}
    (hid : t.owner = some id) : t ∈ base := by
  rw [h.transfers, List.mem_map] at ht
  obtain ⟨listing, hmem, rfl⟩ := ht
  cases listing with
  | given t => exact h.given.subset (List.mem_filterMap.2 ⟨_, hmem, rfl⟩)
  | packed atlas => cases hid

theorem Columns.transfers_ofList (q : List Instruction) : (ofList q).transfers = transfersIn q := by
  rw [transfers, toList_ofList]
  rfl

end Listings

namespace Builder

/-- What is certain of the buffers that a list has given away, to which the given instructions were appended. -/
structure GivesAway (options : BuilderOptions) (sink : Sink) (b : Builder) (appended : List Instruction)
    (ms : List Message) : Prop where
  sent : b.sink = some (sink.enqueueAll ms)
  /-- Each buffer that was appended is listed once at most, and all else that is listed are atlases. -/
  listed : ∃ listings, Lists options.limits (transfersIn appended) (ms.flatMap (·.transfers)) listings
  /-- A buffer of a shared image is listed only if the image was appended and no cache keeps it. -/
  uncached : ∀ m ∈ ms, ∀ t ∈ m.transfers, ∀ id, t.owner = some id → ∃ i ∈ appended, i.tag.handsOver ∧
    ∃ r, firstImage? i.args = some r ∧ r.id = some id ∧ r.image.cached = false ∧ r.image.data = t.bytes
  once : ((transfersIn appended).filterMap (·.owner)).Nodup → ((ms.flatMap (·.transfers)).filterMap (·.owner)).Nodup
  plain : batching options (some sink) = none → ms.flatMap (·.transfers) ++ b.queue.transfers = transfersIn appended

variable {windows : List Window} {options : BuilderOptions}

theorem exists_of_mem_transfersIn {is : List Instruction} {t : Transfer} (h : t ∈ transfersIn is) :
    ∃ i ∈ is, i.tag.handsOver ∧ ∃ r, firstImage? i.args = some r ∧ r.id = t.owner ∧ r.image.cached = false ∧
      r.image.data = t.bytes := by
  obtain ⟨i, hi, htransfer⟩ := List.mem_filterMap.1 h
  rw [Instruction.transfer?] at htransfer
  split at htransfer
  · rename_i htag
    split at htransfer
    · rename_i r hr
      split at htransfer
      · cases htransfer
      · rename_i hcached
        cases htransfer
        exact ⟨i, hi, htag, r, hr, rfl, by simpa using hcached, rfl⟩
    · cases htransfer
  · cases htransfer

theorem lists_windows (h : ∀ w ∈ windows, w.Leaves options) :
    ∃ listings, Lists options.limits (transfersIn (windows.flatMap (·.appended)))
      (windows.flatMap (·.message.transfers)) listings := by
  induction windows with
  | nil => exact ⟨[], rfl, .refl _, by simp⟩
  | cons w windows ih =>
    obtain ⟨q, hq, hedits⟩ := (h w List.mem_cons_self).edited
    obtain ⟨first, hfirst⟩ := lists_of_edits hedits
    obtain ⟨rest, hrest⟩ := ih fun w' hw' ↦ h w' (List.mem_cons_of_mem w hw')
    rw [← Columns.transfers_ofList q, ← hq, ← (h w List.mem_cons_self).transfers] at hfirst
    rw [List.flatMap_cons, List.flatMap_cons, transfersIn_append]
    exact ⟨first ++ rest, hfirst.append hrest⟩

theorem instructionsIn_windows (windows : List Window) (pending : List Instruction) :
    instructionsIn (windows.flatMap Window.events ++ pending.map .appended) =
      windows.flatMap (·.appended) ++ pending := by
  have hwindow (w : Window) : instructionsIn w.events = w.appended := by
    rw [Window.events, instructionsIn_append, instructionsIn_appended]
    cases w.asked <;> simp [instructionsIn, Event.instruction?]
  rw [instructionsIn_append, instructionsIn_appended]
  congr 1
  induction windows with
  | nil => rfl
  | cons w windows ih => rw [List.flatMap_cons, instructionsIn_append, hwindow, ih, List.flatMap_cons]

theorem transfers_plain {sink : Sink} {b : Builder} {pending : List Instruction}
    (h : Divided options sink b windows pending) (hplain : batching options (some sink) = none) :
    windows.flatMap (·.message.transfers) ++ b.queue.transfers =
      transfersIn (windows.flatMap (·.appended) ++ pending) := by
  have hwindow (w : Window) (hw : w ∈ windows) : w.message.transfers = transfersIn w.appended := by
    obtain ⟨q, hq, hforms⟩ := (h.holds.delivers _ (List.mem_map_of_mem hw)).columns
    rw [hplain] at hforms
    obtain rfl : q = w.appended := hforms
    rw [(h.leaves w hw).transfers, show w.chunk.columns = ofList w.appended from hq, Columns.transfers_ofList]
  have hpends := h.holds.pends
  rw [hplain] at hpends
  rw [hpends.2, Columns.transfers_ofList, transfersIn_append]
  congr 1
  clear hpends h
  induction windows with
  | nil => rfl
  | cons w windows ih =>
    rw [List.flatMap_cons, List.flatMap_cons, transfersIn_append, hwindow w List.mem_cons_self,
      ih fun w' hw' ↦ hwindow w' (List.mem_cons_of_mem w hw')]

/-- Over all chunks a list lists no buffer more often than it was appended. -/
theorem buffers_given_away (options : BuilderOptions) (sink : Sink) (cs : List Call) :
    ∃ b ms, cs.foldlM Call.perform (create options (some sink)) = .ok b ∧
      GivesAway options sink b (instructionsIn (eventsBy (create options (some sink)) cs)) ms := by
  obtain ⟨b, hb, windows, pending, h⟩ := isWindowed_calls options sink cs
  obtain ⟨listings, hlists⟩ := lists_windows h.divided.leaves
  have htransfers : (windows.map (·.message)).flatMap (·.transfers) = windows.flatMap (·.message.transfers) := by
    rw [List.flatMap_map]
  have happended : instructionsIn (eventsBy (create options (some sink)) cs) =
      windows.flatMap (·.appended) ++ pending := by
    rw [h.events, instructionsIn_windows]
  have hall : Lists options.limits (transfersIn (windows.flatMap (·.appended) ++ pending))
      (windows.flatMap (·.message.transfers)) listings := by
    refine ⟨hlists.transfers, hlists.given.trans ?_, hlists.packed⟩
    rw [transfersIn_append]
    exact List.sublist_append_left _ _
  rw [happended]
  refine ⟨b, windows.map (·.message), hb, ?_, ⟨listings, ?_⟩, ?_, ?_, ?_⟩
  · rw [h.divided.holds.sent, List.map_map]
    rfl
  · rwa [htransfers]
  · intro m hm t ht id hid
    have hmem : t ∈ windows.flatMap (·.message.transfers) := by
      rw [← htransfers]
      exact List.mem_flatMap.2 ⟨m, hm, ht⟩
    rw [← hid]
    exact exists_of_mem_transfersIn (hall.mem_base hmem hid)
  · intro honce
    rw [htransfers]
    exact hall.owners_sublist.nodup honce
  · intro hplain
    rw [htransfers]
    exact transfers_plain h.divided hplain

def paintTwice : List Call :=
  let paint := Call.add .paintInlineImage [.image ⟨some "image", ⟨1, 1, .rgba, filled 0 4, false⟩⟩]
  [paint, paint, .flush true]

def paintedTwice : Builder := paintTwice.foldl Call.effect (create {} (some (.record [])))

/-- A buffer may be listed twice, with one chunk. -/
theorem buffer_listed_twice :
    ¬ ∀ (options : BuilderOptions) (cs : List Call) (b : Builder) (ms : List Message),
      cs.foldlM Call.perform (create options (some (.record []))) = .ok b → b.sink = some (.record ms) →
        ((ms.flatMap (·.transfers)).filterMap (·.owner)).Nodup := by
  intro honce
  have hrun : paintTwice.foldlM Call.perform (create {} (some (.record []))) = .ok paintedTwice :=
    foldlM_perform rfl paintTwice
  have hsink : paintedTwice.sink = some (.record ((paintedTwice.sink.map Sink.recorded).getD [])) := rfl
  have howners : (((paintedTwice.sink.map Sink.recorded).getD []).flatMap (·.transfers)).filterMap (·.owner) =
      ["image", "image"] := by decide +kernel
  have hfalse := honce {} paintTwice paintedTwice _ hrun hsink
  rw [howners] at hfalse
  exact absurd hfalse (by decide)

end Builder

end DisplayList
