import PersistedQueries.Command.Run
import PersistedQueries.Proofs.Session.Recording
import PersistedQueries.Proofs.Session.Steps

/-!
# The source files of a run

A run transforms its source files one after the other, and the manifest of its session grows with
every file that is transformed. A file that cannot be transformed leaves both as they are.

- `Sources.Sound`: every transformed text is what its file says, and the manifest has an entry for
  each of its call sites.
- `sound_transformFiles`: so it is after any number of files.
- `files_transformFiles`: only files that are looked at are transformed, each at most once.
- `Sources.Sound.get?_hash`: the entry is the canonical text of the call site, as long as no two
  canonical texts have one digest.
-/

namespace PersistedQueries.Command

open Session (Transformed PersistedSite Fits Rewritten)

variable {options : Options} {disk : Disk} {sources later : Sources} {file : String} {code : Text}
  {made : Transformed} {manifest : Manifest} {site : PersistedSite}

/-- A call site of a transformed text. -/
def Sources.Has (sources : Sources) (site : PersistedSite) : Prop :=
  ∃ file made, (file, made) ∈ sources.transforms ∧ site ∈ made.sites

/-- The transformed texts are those of files, and their call sites are in the manifest. -/
structure Sources.Sound (options : Options) (disk : Disk) (sources : Sources) : Prop where
  fits : Fits options sources.session
  rewritten : ∀ file made, (file, made) ∈ sources.transforms →
    ∃ code, disk.readText file = .ok code ∧ Rewritten options code file made
  entered : ∀ manifest, sources.session.manifest = some manifest → ∀ site, sources.Has site →
    ∃ other, sources.Has other ∧ other.persisted.hash = site.persisted.hash ∧
      manifest.entries.get? site.persisted.hash = some other.persisted.query

theorem Sources.sound_start {session : Session} (h : Fits options session) :
    Sources.Sound options disk { session } where
  fits := h
  rewritten _ _ hmem := nomatch hmem
  entered _ _ _ := fun ⟨_, _, hmem, _⟩ => nomatch hmem

/-- Transforming a file adds at most its own transformed text. -/
theorem Sources.transform_eq_ok (h : sources.transform disk file code = .ok later) :
    later.session = (sources.session.transform disk code file).1 ∧
      ((∃ made, (sources.session.transform disk code file).2.1 = .ok (some made) ∧
          later.transforms = sources.transforms ++ [(file, made)]) ∨
        (∀ made, (sources.session.transform disk code file).2.1 ≠ .ok (some made)) ∧
          later.transforms = sources.transforms) := by
  unfold Sources.transform at h
  generalize sources.session.transform disk code file = outcome at h ⊢
  obtain ⟨session, result, output⟩ := outcome
  dsimp only at h ⊢
  split at h
  · cases h
    exact ⟨rfl, .inr ⟨nofun, rfl⟩⟩
  · cases h
    exact ⟨rfl, .inl ⟨_, rfl, rfl⟩⟩
  · split at h
    · cases h
      exact ⟨rfl, .inr ⟨nofun, rfl⟩⟩
    · cases h

/-- Sources to which nothing has been added are sound still. -/
theorem Sources.Sound.unchanged (hsound : sources.Sound options disk)
    (hfits : Fits options later.session) (htransforms : later.transforms = sources.transforms)
    (hmanifest : later.session.manifest = sources.session.manifest) :
    later.Sound options disk := by
  have hsame : ∀ site, later.Has site ↔ sources.Has site := by
    intro site
    unfold Sources.Has
    rw [htransforms]
  refine ⟨hfits, htransforms ▸ hsound.rewritten, fun manifest hlater site hsite => ?_⟩
  rw [hmanifest] at hlater
  obtain ⟨other, hother, hentry⟩ := hsound.entered manifest hlater site ((hsame site).1 hsite)
  exact ⟨other, (hsame other).2 hother, hentry⟩

/-- So are sources with one more transformed text, when its call sites have been recorded. -/
theorem Sources.Sound.added (hsound : sources.Sound options disk)
    (hfits : Fits options later.session) (hread : disk.readText file = .ok code)
    (hrewritten : Rewritten options code file made)
    (htransforms : later.transforms = sources.transforms ++ [(file, made)])
    (hmanifest : later.session.manifest =
      sources.session.manifest.map fun manifest => Session.recorded options manifest made.sites) :
    later.Sound options disk := by
  have hold : ∀ site, sources.Has site → later.Has site := fun site ⟨file', made', hmem, hsite⟩ =>
    ⟨file', made', htransforms ▸ List.mem_append_left _ hmem, hsite⟩
  have hnew : ∀ site ∈ made.sites, later.Has site := fun site hsite =>
    ⟨file, made, htransforms ▸ List.mem_append_right _ (List.mem_singleton_self _), hsite⟩
  refine ⟨hfits, fun file' made' hmem => ?_, fun manifest hlater site hsite => ?_⟩
  · rw [htransforms, List.mem_append] at hmem
    rcases hmem with hmem | hmem
    · exact hsound.rewritten file' made' hmem
    · cases List.mem_singleton.1 hmem
      exact ⟨code, hread, hrewritten⟩
  · obtain ⟨before, hbefore, -⟩ := hsound.fits.path_eq
    rw [hmanifest, hbefore] at hlater
    obtain rfl := Option.some.inj hlater
    -- the entry is new, or it was there and none of the new ones has its digest
    rcases Session.get?_recorded options before made.sites site.persisted.hash with
      ⟨other, hother, hhash, hget⟩ | ⟨hfree, hget⟩
    · exact ⟨other, hnew other hother, hhash, hget⟩
    · obtain ⟨file', made', hmem, hsite⟩ := hsite
      rw [htransforms, List.mem_append] at hmem
      rcases hmem with hmem | hmem
      · obtain ⟨other, hother, hhash, hentry⟩ :=
          hsound.entered before hbefore site ⟨file', made', hmem, hsite⟩
        exact ⟨other, hold other hother, hhash, hget.trans hentry⟩
      · cases List.mem_singleton.1 hmem
        exact absurd rfl (hfree site hsite)

/-- What a file adds keeps the sources sound. -/
theorem Sources.Sound.transform (hsound : sources.Sound options disk)
    (hread : disk.readText file = .ok code) (h : sources.transform disk file code = .ok later) :
    later.Sound options disk := by
  obtain ⟨hsession, hadded⟩ := Sources.transform_eq_ok h
  obtain ⟨-, hcases⟩ := sources.session.transform_cases disk code file
  have hfits : Fits options later.session := hsession ▸ hsound.fits.transform disk code file
  rw [hsound.fits.options_eq, ← hsession] at hcases
  rcases hadded with ⟨made, hresult, htransforms⟩ | ⟨hnone, htransforms⟩ <;>
    rcases hcases with ⟨made', hresult', hrewritten, hmanifest⟩ | ⟨hnone', hmanifest⟩
  · cases hresult.symm.trans hresult'
    exact hsound.added hfits hread hrewritten htransforms hmanifest
  · exact absurd hresult (hnone' made)
  · exact absurd hresult' (hnone made')
  · exact hsound.unchanged hfits htransforms hmanifest

/-- The first of some files is read and transformed before the others. -/
theorem transformFiles_cons_eq_ok {files : List String}
    (h : transformFiles disk sources (file :: files) = .ok later) :
    ∃ code next, disk.readText file = .ok code ∧ sources.transform disk file code = .ok next ∧
      transformFiles disk next files = .ok later := by
  unfold transformFiles at h
  split at h
  · cases h
  next code hread =>
  cases hnext : sources.transform disk file code with
  | error fault =>
    rw [hnext] at h
    cases h
  | ok next =>
    rw [hnext] at h
    exact ⟨code, next, hread, hnext, h⟩

/-- The sources are sound after any number of files. -/
theorem sound_transformFiles {files : List String} (hsound : sources.Sound options disk)
    (h : transformFiles disk sources files = .ok later) : later.Sound options disk := by
  induction files generalizing sources with
  | nil =>
    cases h
    exact hsound
  | cons file files ih =>
    obtain ⟨code, next, hread, hnext, hlater⟩ := transformFiles_cons_eq_ok h
    exact ih (hsound.transform hread hnext) hlater

/-- Files are transformed after those in front of them. -/
theorem transformFiles_append {files more : List String} :
    transformFiles disk sources (files ++ more) =
      (transformFiles disk sources files).bind (transformFiles disk · more) := by
  induction files generalizing sources with
  | nil => rfl
  | cons file files ih =>
    rw [List.cons_append, transformFiles, transformFiles]
    cases disk.readText file with
    | error fault => rfl
    | ok code =>
      dsimp only
      cases sources.transform disk file code with
      | error fault => rfl
      | ok next => exact ih

/-- Each of the files is transformed at most once, in their order. -/
theorem files_transformFiles {files : List String}
    (h : transformFiles disk sources files = .ok later) :
    ∃ kept, kept.Sublist files ∧
      later.transforms.map Prod.fst = sources.transforms.map Prod.fst ++ kept := by
  induction files generalizing sources with
  | nil =>
    cases h
    exact ⟨[], .slnil, (List.append_nil _).symm⟩
  | cons file files ih =>
    obtain ⟨code, next, -, hnext, hlater⟩ := transformFiles_cons_eq_ok h
    obtain ⟨kept, hsublist, hkept⟩ := ih hlater
    rcases (Sources.transform_eq_ok hnext).2 with ⟨made, -, hadded⟩ | ⟨-, hsame⟩
    · refine ⟨file :: kept, hsublist.cons_cons file, ?_⟩
      rw [hkept, hadded, List.map_append, List.append_assoc]
      rfl
    · exact ⟨kept, hsublist.cons file, hsame ▸ hkept⟩

/-- The manifest has the canonical text of every call site under its digest, as long as no two of
these texts have one digest. -/
theorem Sources.Sound.get?_hash (hsound : sources.Sound options disk)
    (hdigest : ∀ site other, sources.Has site → sources.Has other →
      digest site.persisted.query.toList = digest other.persisted.query.toList →
        site.persisted.query = other.persisted.query)
    (hmanifest : sources.session.manifest = some manifest) (hsite : sources.Has site) :
    manifest.entries.get? site.persisted.hash = some site.persisted.query := by
  have hhash : ∀ site, sources.Has site →
      site.persisted.hash = digest site.persisted.query.toList := by
    rintro site ⟨file, made, hmem, hsite⟩
    obtain ⟨code, -, hrewritten⟩ := hsound.rewritten file made hmem
    exact hrewritten.hash_eq site hsite
  obtain ⟨other, hother, hsame, hget⟩ := hsound.entered manifest hmanifest site hsite
  rw [hget, hdigest other site hother hsite ((hhash other hother).symm.trans
    (hsame.trans (hhash site hsite)))]

end PersistedQueries.Command
