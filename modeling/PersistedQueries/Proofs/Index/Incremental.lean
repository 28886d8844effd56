import PersistedQueries.Proofs.Index.Closure

/-!
# Incremental indexing equals a fresh build

An index that has followed the edits of some files persists the same queries as an index that has
seen nothing but the files as they are now. The history may hold calls that failed, on files that
were not well-formed at the time. What matters is that each text that the index holds is the one
that its file has.

- `Edited`: the host and the index after a history of edits and calls.
- `Edited.fits`: the index holds the texts that the host has.
- `WellFormed.persist_eq_of_holds`, `WellFormed.persist_eq`: indices that hold one program, with a
  file indexed, persist the definitions of the file in one way.
- `incremental_eq_fresh`: so a history does not show.
-/

namespace PersistedQueries.Index

variable {ε : Type} {host : Host ε} {index other : Index}

/-! ## Histories of edits -/

/-- The host and the index after a history. When a file gets a new text, or loses its text, it is
forgotten; the host may find other files for specifiers from then on. A file is indexed with the
text that it has, whether or not that succeeds. -/
inductive Edited : Host ε → Index → Prop where
  /-- Nothing is indexed. -/
  | start (host : Host ε) : Edited host .empty
  /-- One file is edited and forgotten. -/
  | edit {host host' : Host ε} {index : Index} (h : Edited host index) (file : String)
      (hothers : ∀ other, other ≠ file → host'.load other = host.load other) :
      Edited host' (index.invalidate file)
  /-- A file is indexed with its text. -/
  | call {host : Host ε} {index : Index} (h : Edited host index) {file : String} {source : Text}
      (hload : host.load file = .ok source) :
      Edited host (indexFile host index file source).index

/-- A call for a file with the text that it has enters the texts that the host has. -/
theorem callTexts_eq_hostTexts {file : String} {source : Text}
    (hload : host.load file = .ok source) : callTexts host file source = hostTexts host := by
  funext id
  by_cases hid : id = file
  · rw [hid, callTexts_self, hostTexts_eq_some.2 hload]
  · rw [callTexts_of_ne host source hid]

/-- Forgetting the file that is edited leaves texts that did not change. -/
theorem Fits.invalidate {program later : Program} {file : String} (h : Fits program index)
    (hothers : ∀ other, other ≠ file → later other = program other) :
    Fits later (index.invalidate file) := by
  obtain ⟨texts, hexact, htexts⟩ := h
  refine ⟨_, hexact.invalidate file, fun {id text} htext => ?_⟩
  rw [Function.update_apply] at htext
  split at htext
  · cases htext
  · next hid => rw [hothers id hid, htexts htext]

/-- A call, however it ends, enters texts that the host has. -/
theorem Fits.call {file : String} {source : Text} (h : Fits (hostTexts host) index)
    (hload : host.load file = .ok source) :
    Fits (hostTexts host) (indexFile host index file source).index := by
  have hgrows := indexFile_grows host index file source
  rw [h.refresh (hostTexts_eq_some.2 hload), callTexts_eq_hostTexts hload] at hgrows
  exact h.grows hgrows

/-- After any history the index holds texts that the host has. -/
theorem Edited.fits (h : Edited host index) : Fits (hostTexts host) index := by
  induction h with
  | start => exact Fits.empty _
  | edit _ file hothers ih =>
    refine ih.invalidate fun other hother => ?_
    unfold hostTexts
    rw [hothers other hother]
  | call _ hload ih => exact ih.call hload

/-! ## One program, one result -/

section Persist

variable {program : Program} {file : String} {source : Text} {site : CallSite}

/-- What is reached through one index is reached through another, when both hold a program and know
all names that they reach. -/
theorem WellFormed.reaches_and_get?_eq (hprogram : WellFormed program host)
    (h : Holds program index) (h' : Holds program other) (hsite : Contributes program file site)
    (hcontains : ∀ name, Reaches index.registry site name → index.registry.contains name = true)
    (hcontains' : ∀ name, Reaches other.registry site name → other.registry.contains name = true)
    {name : String} (hname : Reaches index.registry site name) :
    Reaches other.registry site name ∧ index.registry.get? name = other.registry.get? name := by
  have hagree {name : String} (hown : ∃ target own, Contributes program target own ∧ own.name = name)
      (hname : Reaches index.registry site name) (hname' : Reaches other.registry site name) :
      index.registry.get? name = other.registry.get? name := by
    obtain ⟨target, own, hown, rfl⟩ := hown
    obtain ⟨via, hvia⟩ := Table.contains_iff.1 (hcontains _ hname)
    obtain ⟨via', hvia'⟩ := Table.contains_iff.1 (hcontains' _ hname')
    rw [hvia, hvia', h.get?_eq hown hvia, h'.get?_eq hown hvia']
  -- the definition on the way to a name is the same in both, so it lists the same names
  have hreaches : (∃ target own, Contributes program target own ∧ own.name = name) ∧
      Reaches other.registry site name := by
    induction hname with
    | direct hname => exact ⟨hprogram.exists_contributes hsite hname, .direct hname⟩
    | through hname hvia hnext ih =>
      have hsame := hagree ih.1 hname ih.2
      obtain ⟨⟨target, own, hown, rfl⟩, hname'⟩ := ih
      exact ⟨hprogram.exists_contributes (h.contributes hown hvia).2 hnext,
        .through hname' (hsame.symm.trans hvia) hnext⟩
  exact ⟨hreaches.2, hagree hreaches.1 hname hreaches.2⟩

/-- Two calls for a file of a program, on hosts on which it is well-formed and with indices that hold
whatever else of it, make the definitions of the file persist in one way. -/
theorem WellFormed.persist_eq_of_holds {ε' : Type} {host' : Host ε'}
    (hprogram : WellFormed program host) (hprogram' : WellFormed program host')
    (h : Holds program index) (h' : Holds program other) (hsource : program file = some source)
    (hsite : site ∈ CallSite.extract source (some file)) (addTypename : Bool) :
    persist (indexFile host index file source).index.registry site addTypename =
      persist (indexFile host' other file source).index.registry site addTypename := by
  have hown : Contributes program file site := ⟨source, hsource, hsite⟩
  have hcontains {ε : Type} {host : Host ε} {index : Index} (hprogram : WellFormed program host)
      (h : Holds program index) : Holds program (indexFile host index file source).index ∧
        ∀ name, Reaches (indexFile host index file source).index.registry site name →
          (indexFile host index file source).index.registry.contains name = true := by
    obtain ⟨hok, hgrows⟩ := hprogram.indexFile_grows h hsource
    have hholds := hprogram.holds_grows h hgrows
    have hfile := mem_files_indexFile hok
    exact ⟨hholds, fun name => contains_of_reaches hok (hholds.registered hfile hown)
      ((hholds.mem_definedIn hfile hsource).2 ⟨site, hown, rfl⟩)⟩
  obtain ⟨hholds, hknown⟩ := hcontains hprogram h
  obtain ⟨hholds', hknown'⟩ := hcontains hprogram' h'
  exact persist_congr addTypename fun name hname =>
    (hprogram.reaches_and_get?_eq hholds hholds' hown hknown hknown' hname).2

/-- Two calls for a file of a well-formed program, with indices that hold whatever else of it,
make the definitions of the file persist in one way. -/
theorem WellFormed.persist_eq (hprogram : WellFormed program host) (h : Fits program index)
    (h' : Fits program other) (hsource : program file = some source)
    (hsite : site ∈ CallSite.extract source (some file)) (addTypename : Bool) :
    persist (indexFile host index file source).index.registry site addTypename =
      persist (indexFile host other file source).index.registry site addTypename :=
  hprogram.persist_eq_of_holds hprogram (hprogram.holds h) (hprogram.holds h') hsource hsite
    addTypename

end Persist

/-- After any history of edits and calls, failed ones among them, at the end of which the files of
the host are a well-formed program: indexing a file with its text succeeds, as it does when nothing
has been indexed before, and every definition of the file persists alike in both. -/
theorem incremental_eq_fresh (hhistory : Edited host index)
    (hprogram : WellFormed (hostTexts host) host) {file : String} {source : Text}
    (hload : host.load file = .ok source) :
    (indexFile host index file source).result = .ok () ∧
    (indexFile host .empty file source).result = .ok () ∧
    ∀ site ∈ CallSite.extract source (some file), ∀ addTypename,
      persist (indexFile host index file source).index.registry site addTypename =
        persist (indexFile host .empty file source).index.registry site addTypename := by
  have hsource := hostTexts_eq_some.2 hload
  have hempty := Fits.empty (hostTexts host)
  refine ⟨(hprogram.indexFile_ok hhistory.fits hsource).1, (hprogram.indexFile_ok hempty hsource).1,
    fun site hsite addTypename => ?_⟩
  exact hprogram.persist_eq hhistory.fits hempty hsource hsite addTypename

/-- The query is indexed before its fragment is written, and again afterwards. -/
theorem incremental_eq_fresh_query :
    let before : Host String := .ofTable (.ofList [("query.ts", queryFile)]) .empty id
    let host : Host String := .ofTable heroes .empty id
    let index := (indexFile before .empty "query.ts" queryFile).index.invalidate "names.ts"
    Edited host index ∧ WellFormed (hostTexts host) host ∧
    (indexFile host index "query.ts" queryFile).result = .ok () ∧
    persist (indexFile host index "query.ts" queryFile).index.registry heroesQuery true =
      persist (indexFile host .empty "query.ts" queryFile).index.registry heroesQuery true := by
  intro before host index
  have hhistory : Edited host index := by
    refine .edit (.call (.start before) rfl) "names.ts" fun other hother => ?_
    have hget : heroes.get? other = (Table.ofList [("query.ts", queryFile)]).get? other := by
      show (Table.insert _ "names.ts" fragmentFile).get? other = _
      rw [Table.get?_insert, if_neg (Ne.symm hother)]
      rfl
    show (Host.ofTable heroes .empty id).load other = _
    unfold Host.ofTable before
    dsimp only [Host.ofTable]
    rw [hget]
  have hprogram : WellFormed (hostTexts host) host := by
    rw [hostTexts_ofTable]
    exact wellFormed_heroes
  obtain ⟨hok, -, hpersist⟩ := incremental_eq_fresh hhistory hprogram
    (wellFormed_heroes.loaded (get?_heroes_eq_some.2 (.inl ⟨rfl, rfl⟩)))
  refine ⟨hhistory, hprogram, hok, hpersist heroesQuery ?_ true⟩
  rw [extract_queryFile]
  exact List.mem_singleton_self heroesQuery

end PersistedQueries.Index
