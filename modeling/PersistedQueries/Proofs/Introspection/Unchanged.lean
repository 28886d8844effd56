import PersistedQueries.Proofs.Introspection.Publishing
import PersistedQueries.Proofs.Json.Compact

/-!
# Artifacts of an unchanged schema

Artifacts are not written again while the schema is what it was. That is told from a digest, so it
depends on what the digest is taken of: two results must have one digest text when they are the same
schema, and only then. The order of fields is all that a digest text leaves out.

- `writeEach_of_refusal`: artifacts are not written while the disk refuses to.
- `publish_of_last_eq`, `publish_of_last_ne`: the two ways in which a call that has loaded a result goes
  on.
- `unchanged_iff_reordered`: nothing is written again exactly when the result is the one of the last
  time, up to the order of fields.
-/

namespace PersistedQueries.Introspection

open Json (Plain Reordered)

variable {surroundings later : Surroundings} {config : SchemaOptions} {introspection earlier : Json}
  {disk : Disk} {last : Option String}

/-- The first write fails when the disk refuses it. -/
theorem Publishing.writeEach_of_refusal {cause : Disk.Cause} {refusals : List (Option Disk.Cause)}
    (hdisk : disk.refusals = some cause :: refusals)
    {entries : List (String × Except Publishing.Fault Json)} (hentries : entries ≠ []) :
    ∃ fault, (Publishing.writeEach disk entries).2 = .error fault := by
  obtain ⟨⟨path, content⟩, rest, rfl⟩ := List.exists_cons_of_ne_nil hentries
  cases content with
  | error fault => exact ⟨fault, rfl⟩
  | ok content =>
    unfold Publishing.writeEach Disk.writeJson Disk.replaceFile Disk.nextRefusal
    rw [hdisk]
    exact ⟨_, rfl⟩

theorem publish_of_last_eq (hload : load surroundings config = (later, .ok introspection))
    (hlast : last = some (digest (Json.digestText introspection))) :
    publish surroundings config last = (later, .ok (digest (Json.digestText introspection))) := by
  unfold publish
  rw [hload]
  exact if_pos hlast

theorem publish_of_last_ne (hload : load surroundings config = (later, .ok introspection))
    (hlast : last ≠ some (digest (Json.digestText introspection))) :
    publish surroundings config last =
      let written := Publishing.writeEach later.disk (Publishing.artifacts config introspection)
      ({ later with disk := written.1 },
        written.2.map fun _ => digest (Json.digestText introspection)) := by
  unfold publish
  rw [hload]
  exact if_neg hlast

/-- **Unchanged schemas.** Two results without fractions and without repeated names have one digest text
exactly when they are equal up to the order of fields, at any depth. So a call that is given the digest
of the one and loads the other, with no two texts of one digest, writes nothing when they are, and all
artifacts when they are not: when the disk refuses the next write, it succeeds exactly when they are. -/
theorem unchanged_iff_reordered (hplain : Plain introspection) (hearlier : Plain earlier) :
    (Json.digestText introspection = Json.digestText earlier ↔ Reordered introspection earlier) ∧
      ∀ (surroundings later : Surroundings) (config : SchemaOptions),
        load surroundings config = (later, .ok introspection) →
        (digest (Json.digestText introspection) = digest (Json.digestText earlier) →
          Json.digestText introspection = Json.digestText earlier) →
        let hash := digest (Json.digestText introspection)
        let published := publish surroundings config (some (digest (Json.digestText earlier)))
        (Reordered introspection earlier →
          published = (later, .ok hash) ∧ later.disk = surroundings.disk) ∧
        (¬ Reordered introspection earlier →
          published =
            let written :=
              Publishing.writeEach surroundings.disk (Publishing.artifacts config introspection)
            ({ later with disk := written.1 }, written.2.map fun _ => hash)) ∧
        ∀ cause refusals, surroundings.disk.refusals = some cause :: refusals →
          Publishing.paths config ≠ [] →
          (published.2 = .ok hash ↔ Reordered introspection earlier) := by
  have htexts := Json.digestText_eq_iff hplain hearlier
  refine ⟨htexts, ?_⟩
  intro surroundings later config hload hcollision hash published
  have hdisk : later.disk = surroundings.disk := by
    have hkept := disk_load surroundings config
    rw [hload] at hkept
    exact hkept
  have hskipped (h : Reordered introspection earlier) : published = (later, .ok hash) :=
    publish_of_last_eq hload (congrArg (fun text => some (digest text)) (htexts.2 h)).symm
  have hwritten (h : ¬ Reordered introspection earlier) : published =
      let written :=
        Publishing.writeEach surroundings.disk (Publishing.artifacts config introspection)
      ({ later with disk := written.1 }, written.2.map fun _ => hash) := by
    rw [← hdisk]
    refine publish_of_last_ne hload fun heq => h (htexts.1 (hcollision ?_))
    exact (Option.some.inj heq).symm
  refine ⟨fun h => ⟨hskipped h, hdisk⟩, hwritten, ?_⟩
  intro cause refusals hrefusals hpaths
  constructor
  · intro hok
    by_contra hchanged
    have hentries : Publishing.artifacts config introspection ≠ [] := by
      intro hnone
      rw [← Publishing.map_fst_artifacts config introspection, hnone] at hpaths
      exact hpaths rfl
    obtain ⟨fault, hfault⟩ := Publishing.writeEach_of_refusal hrefusals hentries
    rw [hwritten hchanged] at hok
    dsimp only at hok
    rw [hfault] at hok
    cases hok
  · intro h
    rw [hskipped h]

/-- An endpoint that answers with another order of fields, and one that answers with another schema. -/
theorem unchanged_iff_reordered_schema :
    (∃ later, publish (Publishing.endpointSurroundings [Publishing.reorderedSchema])
        Publishing.endpointConfig (some (digest (Json.digestText Publishing.plainSchema))) =
          (later, .ok (digest (Json.digestText Publishing.reorderedSchema))) ∧
        later.disk = .withDirectory ['w']) ∧
      ¬ Reordered Publishing.reorderedSchema Publishing.emptySchema := by
  have hplain : Plain Publishing.plainSchema := by simp [Publishing.plainSchema]
  have hreordered : Plain Publishing.reorderedSchema := by simp [Publishing.reorderedSchema]
  have hempty : Plain Publishing.emptySchema := by simp [Publishing.emptySchema]
  have hloaded : (load (Publishing.endpointSurroundings [Publishing.reorderedSchema])
      Publishing.endpointConfig).2.toOption = some Publishing.reorderedSchema := by
    decide +kernel
  obtain ⟨htexts, hcalls⟩ := unchanged_iff_reordered hreordered hplain
  obtain ⟨hother, -⟩ := unchanged_iff_reordered hreordered hempty
  have hsame : Json.digestText Publishing.reorderedSchema = Json.digestText Publishing.plainSchema := by
    decide +kernel
  constructor
  · obtain ⟨hskipped, -⟩ := hcalls _ _ _ (Prod.ext rfl (eq_ok_of_toOption hloaded)) fun _ => hsame
    obtain ⟨hpublish, hdisk⟩ := hskipped (htexts.1 hsame)
    exact ⟨_, hpublish, hdisk⟩
  · intro h
    have htext : Json.digestText Publishing.reorderedSchema ≠
        Json.digestText Publishing.emptySchema := by
      decide +kernel
    exact htext (hother.2 h)

end PersistedQueries.Introspection
