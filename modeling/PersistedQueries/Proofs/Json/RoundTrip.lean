import Mathlib.Data.List.Basic
import Mathlib.Data.Nat.Digits.Defs
import PersistedQueries.Json.Reader
import PersistedQueries.Json.Writer
import PersistedQueries.Table

/-!
# Objects of strings are read as they were written

A written string is read back character by character: whatever an escape was written for, the reader
makes it that character again. From there the fields of an object are read one after the other, each
up to the comma or the brace behind it.

- `fourHex?_hexDigits`: four digits are read as their number.
- `readString_escapeChar`: one escaped character is read as the character; `readString_escape` is the
  induction over a text.
- `readFields_writeEntry`: one field is read up to the text behind it; `readFields_writeEntries` is
  the induction over the fields.
- `parse_write_entries`: an object of strings is read as it was written.
- `all_isWritten_write_entries`: it is written in line feeds and printable ASCII.
-/

namespace PersistedQueries.Json

/-! ## Hexadecimal digits -/

theorem hexValue?_digitChar : ∀ n < 16, hexValue? (Nat.digitChar n) = some n := by
  decide

/-- The last digit stands behind the others, and zeros stand in front of them. -/
theorem hexDigits_succ {width : Nat} (h : 0 < width) (n : Nat) :
    (Text.hexDigits (width + 1) n).toList =
      (Text.hexDigits width (n / 16)).toList ++ [Nat.digitChar (n % 16)] := by
  simp only [Text.hexDigits, String.toList_ofList]
  rcases Nat.lt_or_ge n 16 with hsmall | hlarge
  · obtain ⟨fewer, rfl⟩ := Nat.exists_eq_succ_of_ne_zero h.ne'
    rw [Nat.toDigits_of_lt_base hsmall, Nat.div_eq_of_lt hsmall, Nat.mod_eq_of_lt hsmall,
      Nat.toDigits_of_lt_base (by decide : 0 < 16)]
    simp [List.replicate_succ']
  · rw [Nat.toDigits_of_base_le (by decide) hlarge]
    simp

/-- Four digits of a number. -/
theorem hexDigits_four {n : Nat} (h : n < 0x10000) :
    (Text.hexDigits 4 n).toList = [Nat.digitChar (n / 16 / 16 / 16),
      Nat.digitChar (n / 16 / 16 % 16), Nat.digitChar (n / 16 % 16), Nat.digitChar (n % 16)] := by
  have hfirst : (Text.hexDigits 1 (n / 16 / 16 / 16)).toList =
      [Nat.digitChar (n / 16 / 16 / 16)] := by
    have hlt : n / 16 / 16 / 16 < 16 := by omega
    simp [Text.hexDigits, Nat.toDigits_of_lt_base hlt]
  rw [hexDigits_succ (by decide), hexDigits_succ (by decide), hexDigits_succ (by decide), hfirst]
  rfl

/-- Four digits are read as the number they were written for. -/
theorem fourHex?_hexDigits {n : Nat} (h : n < 0x10000) {text : Text} (hmore : text ≠ []) :
    fourHex? ((Text.hexDigits 4 n).toList ++ text) = some n := by
  obtain ⟨c, rest, rfl⟩ := List.exists_cons_of_ne_nil hmore
  rw [hexDigits_four h]
  show (do
    let a ← hexValue? (Nat.digitChar (n / 16 / 16 / 16))
    let b ← hexValue? (Nat.digitChar (n / 16 / 16 % 16))
    let c ← hexValue? (Nat.digitChar (n / 16 % 16))
    let d ← hexValue? (Nat.digitChar (n % 16))
    return ((a * 16 + b) * 16 + c) * 16 + d) = some n
  rw [hexValue?_digitChar _ (by omega), hexValue?_digitChar _ (by omega),
    hexValue?_digitChar _ (by omega), hexValue?_digitChar _ (by omega)]
  show some _ = some n
  congr 1
  omega

/-! ## Strings -/

theorem unicodeEscape_eq (unit : Nat) :
    unicodeEscape unit = '\\' :: 'u' :: (Text.hexDigits 4 unit).toList := by
  simp [unicodeEscape]

theorem length_unicodeEscape {unit : Nat} (h : unit < 0x10000) :
    (unicodeEscape unit).length = 6 := by
  rw [unicodeEscape_eq, hexDigits_four h]
  rfl

variable {start fuel offset : Nat} {text : Text}

/-- A four-digit escape is read with the one behind it if they are two halves of one character. -/
theorem readString_unicodeEscape {unit : Nat} (h : unit < 0x10000) (hmore : text ≠ []) :
    readString start (fuel + 1) offset (unicodeEscape unit ++ text) =
      (readString start fuel (offset + 2 + (joinSurrogates unit text).2)
        (((Text.hexDigits 4 unit).toList ++ text).drop (joinSurrogates unit text).2)).map
          fun (tail, place) => ((joinSurrogates unit text).1 :: tail, place) := by
  have hdrop : ((Text.hexDigits 4 unit).toList ++ text).drop 4 = text := by
    rw [hexDigits_four h]
    rfl
  rw [unicodeEscape_eq]
  simp only [List.cons_append, readString]
  rw [fourHex?_hexDigits h hmore]
  simp [hdrop]

/-- A unit that is no surrogate stands for a character of its own. -/
theorem joinSurrogates_alone {unit : Nat} (h : unit < 0xD800 ∨ 0xDFFF < unit) :
    joinSurrogates unit text = (Char.ofNat unit, 4) := by
  have hhigh : ¬ (0xD800 ≤ unit ∧ unit < 0xDC00) := by omega
  have hlow : ¬ (0xDC00 ≤ unit ∧ unit < 0xE000) := by omega
  unfold joinSurrogates
  rw [if_neg hhigh, if_neg hlow]

/-- The two halves of a number above U+FFFF are joined. -/
theorem joinSurrogates_halves {n : Nat} (h : n < 0x100000) (hmore : text ≠ []) :
    joinSurrogates (0xD800 + n / 0x400) (unicodeEscape (0xDC00 + n % 0x400) ++ text) =
      (Char.ofNat (0x10000 + n), 10) := by
  have hhigh : 0xD800 ≤ 0xD800 + n / 0x400 ∧ 0xD800 + n / 0x400 < 0xDC00 := by omega
  have hlow : 0xDC00 ≤ 0xDC00 + n % 0x400 ∧ 0xDC00 + n % 0x400 < 0xE000 := by omega
  have hvalue : 0x10000 + (0xD800 + n / 0x400 - 0xD800) * 0x400 + (0xDC00 + n % 0x400 - 0xDC00) =
      0x10000 + n := by omega
  rw [unicodeEscape_eq, List.cons_append, List.cons_append]
  unfold joinSurrogates
  rw [if_pos hhigh]
  simp only [fourHex?_hexDigits (by omega : 0xDC00 + n % 0x400 < 0x10000) hmore]
  rw [if_pos hlow, hvalue]

/-- An escaped character is read as the character. -/
theorem readString_escapeChar (c : Char) (hmore : text ≠ []) :
    readString start (fuel + 1) offset (escapeChar c ++ text) =
      (readString start fuel (offset + (escapeChar c).length) text).map
        fun (tail, place) => (c :: tail, place) := by
  -- the escapes of one letter come first, then what stands for itself, then the numbers
  unfold escapeChar
  split
  · next h => subst h; rfl
  split
  · next h => subst h; rfl
  split
  · next h => subst h; rfl
  split
  · next h => subst h; rfl
  split
  · next h => subst h; rfl
  split
  · next h => subst h; rfl
  split
  · next h => subst h; rfl
  next hquote hbackslash _ _ _ _ _ =>
  have hvalid : c.toNat < 0xD800 ∨ 0xDFFF < c.toNat ∧ c.toNat < 0x110000 := c.valid
  split
  · next hplain =>
    have hcontrol : ¬ c.toNat < 0x20 := by omega
    simp [readString, hquote, hbackslash, hcontrol]
  split
  · next hbasic =>
    have hdrop : ((Text.hexDigits 4 c.toNat).toList ++ text).drop 4 = text := by
      rw [hexDigits_four hbasic]
      rfl
    rw [readString_unicodeEscape hbasic hmore, joinSurrogates_alone (by omega),
      Char.ofNat_toNat, hdrop, length_unicodeEscape hbasic]
    rfl
  · next habove =>
    -- the reader takes the second escape along with the first one
    obtain ⟨n, hn⟩ : ∃ n, c.toNat = 0x10000 + n := ⟨c.toNat - 0x10000, by omega⟩
    have hhigh : 0xD800 + n / 0x400 < 0x10000 := by omega
    have hlow : 0xDC00 + n % 0x400 < 0x10000 := by omega
    have hdrop : ((Text.hexDigits 4 (0xD800 + n / 0x400)).toList ++
        (unicodeEscape (0xDC00 + n % 0x400) ++ text)).drop 10 = text := by
      rw [hexDigits_four hhigh, unicodeEscape_eq, hexDigits_four hlow]
      rfl
    have hchar : Char.ofNat (0x10000 + n) = c := by rw [← hn, Char.ofNat_toNat]
    simp only [hn, Nat.add_sub_cancel_left]
    rw [List.append_assoc, readString_unicodeEscape hhigh (by simp [hmore]),
      joinSurrogates_halves (by omega) hmore, hchar, hdrop, List.length_append,
      length_unicodeEscape hhigh, length_unicodeEscape hlow]
    rfl

/-- An escaped text is read as the text, up to the quote that closes it. -/
theorem readString_escape {content : Text} (hfuel : content.length < fuel) :
    readString start fuel offset (escape content ++ '\x22' :: text) =
      .ok (content, offset + (escape content).length + 1, text) := by
  induction content generalizing fuel offset with
  | nil =>
    obtain ⟨fewer, rfl⟩ := Nat.exists_eq_succ_of_ne_zero hfuel.ne'
    rfl
  | cons c content ih =>
    obtain ⟨fewer, rfl⟩ := Nat.exists_eq_succ_of_ne_zero (Nat.ne_zero_of_lt hfuel)
    have hescape : escape (c :: content) = escapeChar c ++ escape content := rfl
    rw [hescape, List.append_assoc, readString_escapeChar c (by simp),
      ih (Nat.lt_of_succ_lt_succ hfuel), List.length_append]
    simp only [Except.map]
    rw [Nat.add_assoc offset]

/-! ## Objects of strings -/

/-- Spaces are skipped up to the first character that is none. -/
theorem skipSpace_append {space : Text} {c : Char} (hspace : space.all isSpace = true)
    (hc : isSpace c = false) :
    skipSpace offset (space ++ c :: text) = (offset + space.length, c :: text) := by
  have htake : (space ++ c :: text).takeWhile isSpace = space := by
    rw [List.takeWhile_append_of_pos (List.all_eq_true.1 hspace), List.takeWhile_cons_of_neg (by simp [hc]),
      List.append_nil]
  simp only [skipSpace, htake, List.drop_left]

/-- A written string is read as the string. -/
theorem readValue_writeString {content : String} (hfuel : content.toList.length < fuel) :
    readValue (fuel + 1) offset (writeString content ++ text) =
      .ok (.string content, offset + 1 + (escape content.toList).length + 1, text) := by
  unfold writeString
  rw [List.append_assoc, List.cons_append, readValue]
  simp only [List.singleton_append]
  rw [readString_escape hfuel]
  show Except.ok _ = Except.ok _
  rw [String.ofList_toList]

/-- A field with a string as it stands in an object. -/
def writeEntry (entry : String × String) : Text :=
  writeString entry.1 ++ indented.colon ++ writeString entry.2

/-- A field with a string. -/
def entryField (entry : String × String) : String × Json := (entry.1, .string entry.2)

variable {limit : Nat} {entry : String × String} {entries : List (String × String)}

/-- A written field is read up to the text behind it: the end of the object, or more fields. -/
theorem readFields_writeEntry (hname : entry.1.toList.length < fuel)
    (hvalue : entry.2.toList.length < limit) :
    ∃ behind,
      (∀ stop rest, skipSpace behind text = (stop, '\x7d' :: rest) →
        readFields (readValue (limit + 1)) (fuel + 1) offset (writeEntry entry ++ text) =
          .ok ([entryField entry], stop + 1, rest)) ∧
      ∀ stop more next rest, skipSpace behind text = (stop, ',' :: more) →
        skipSpace (stop + 1) more = (next, rest) →
        readFields (readValue (limit + 1)) (fuel + 1) offset (writeEntry entry ++ text) =
          (readFields (readValue (limit + 1)) fuel next rest).map
            fun (fields, place) => (entryField entry :: fields, place) := by
  let behindName := offset + 1 + (escape entry.1.toList).length + 1
  have hcolon : ∀ rest, skipSpace behindName (':' :: ' ' :: rest) =
      (behindName, ':' :: ' ' :: rest) := fun rest =>
    @skipSpace_append _ (' ' :: rest) [] ':' rfl (by decide)
  have hspace : skipSpace (behindName + 1) (' ' :: (writeString entry.2 ++ text)) =
      (behindName + 2, writeString entry.2 ++ text) :=
    @skipSpace_append _ _ [' '] '\x22' (by decide) (by decide)
  have htext : writeEntry entry ++ text = '\x22' :: (escape entry.1.toList ++
      '\x22' :: ':' :: ' ' :: (writeString entry.2 ++ text)) := by
    simp [writeEntry, writeString, indented]
  refine ⟨behindName + 2 + 1 + (escape entry.2.toList).length + 1, ?_⟩
  rw [htext, readFields, readString_escape hname]
  simp only [bind, Except.bind]
  rw [hcolon]
  simp only [hspace, readValue_writeString hvalue, String.ofList_toList]
  refine ⟨fun stop rest hend => ?_, fun stop more next rest hcomma hnext => ?_⟩
  · rw [hend]
    rfl
  · rw [hcomma]
    show Except.bind (readFields (readValue (limit + 1)) fuel (skipSpace (stop + 1) more).1
      (skipSpace (stop + 1) more).2) (fun read => .ok (entryField entry :: read.1, read.2)) = _
    rw [hnext]
    cases readFields (readValue (limit + 1)) fuel next rest <;> rfl

theorem escapeChar_ne_nil (c : Char) : escapeChar c ≠ [] := by
  unfold escapeChar
  split_ifs
  all_goals first | exact List.cons_ne_nil _ _ | skip
  · rw [unicodeEscape_eq]
    exact List.cons_ne_nil _ _
  · dsimp only
    rw [unicodeEscape_eq]
    exact List.cons_ne_nil _ _

theorem length_le_escape (content : Text) : content.length ≤ (escape content).length := by
  induction content with
  | nil => exact Nat.zero_le _
  | cons c content ih =>
    have hchar := List.length_pos_iff.2 (escapeChar_ne_nil c)
    rw [List.length_cons, Nat.add_comm, escape, List.flatMap_cons, List.length_append]
    exact Nat.add_le_add hchar ih

theorem length_writeEntry (entry : String × String) :
    entry.1.toList.length + entry.2.toList.length < (writeEntry entry).length := by
  have hname := length_le_escape entry.1.toList
  have hvalue := length_le_escape entry.2.toList
  simp only [writeEntry, writeString, List.length_append, List.length_cons]
  omega

/-- The text between two fields of an object. -/
def entrySeparator : Text := ",\n  ".toList

/-- Written fields are read as the fields, up to the brace that closes the object. -/
theorem readFields_writeEntries
    (hfuel : (Text.joinWith entrySeparator ((entry :: entries).map writeEntry)).length ≤ fuel)
    (hlimit : fuel ≤ limit) :
    ∃ behind, readFields (readValue (limit + 1)) (fuel + 1) offset
        (Text.joinWith entrySeparator ((entry :: entries).map writeEntry) ++
          '\n' :: '\x7d' :: text) =
      .ok ((entry :: entries).map entryField, behind, text) := by
  -- each field takes one unit of fuel, and its text is longer than that
  induction entries generalizing entry fuel offset with
  | nil =>
    have hentry := length_writeEntry entry
    rw [List.map_singleton, Text.joinWith] at hfuel ⊢
    obtain ⟨behind, hend, -⟩ := @readFields_writeEntry fuel offset ('\n' :: '\x7d' :: text)
      limit entry (by omega) (by omega)
    have hspace : skipSpace behind ('\n' :: '\x7d' :: text) = (behind + 1, '\x7d' :: text) :=
      @skipSpace_append _ text ['\n'] '\x7d' (by decide) (by decide)
    exact ⟨_, hend _ _ hspace⟩
  | cons next entries ih =>
    have hjoin : Text.joinWith entrySeparator ((entry :: next :: entries).map writeEntry) =
        writeEntry entry ++ entrySeparator ++
          Text.joinWith entrySeparator ((next :: entries).map writeEntry) := rfl
    rw [hjoin] at hfuel ⊢
    obtain ⟨fewer, rfl⟩ : ∃ fewer, fuel = fewer + 1 := by
      refine Nat.exists_eq_add_one.2 (lt_of_lt_of_le ?_ hfuel)
      simp [entrySeparator]
    rw [List.length_append, List.length_append] at hfuel
    have hentry := length_writeEntry entry
    have hseparator : entrySeparator.length = 4 := rfl
    have hnext : ∃ rest, Text.joinWith entrySeparator ((next :: entries).map writeEntry) =
        '\x22' :: rest := by
      cases entries <;> exact ⟨_, rfl⟩
    obtain ⟨behind, -, hcomma⟩ := @readFields_writeEntry (fewer + 1) offset (entrySeparator ++
      (Text.joinWith entrySeparator ((next :: entries).map writeEntry) ++ '\n' :: '\x7d' :: text))
      limit entry (by omega) (by omega)
    obtain ⟨stop, hrest⟩ := @ih fewer (behind + 4) next (by omega) (by omega)
    obtain ⟨rest, hnext⟩ := hnext
    rw [hnext] at hcomma hrest ⊢
    have hspace : skipSpace (behind + 1)
        ("\n  ".toList ++ ('\x22' :: rest ++ '\n' :: '\x7d' :: text)) =
          (behind + 4, '\x22' :: rest ++ '\n' :: '\x7d' :: text) :=
      @skipSpace_append _ _ "\n  ".toList '\x22' (by decide) (by decide)
    refine ⟨stop, ?_⟩
    rw [List.append_assoc, List.append_assoc,
      hcomma behind _ _ _ (@skipSpace_append _ _ [] ',' rfl (by decide)) hspace, hrest]
    rfl

theorem writeFields_map_entryField (level : Nat) (entries : List (String × String)) :
    writeFields indented level (entries.map entryField) = entries.map writeEntry := by
  induction entries with
  | nil => rfl
  | cons entry entries ih =>
    rw [List.map_cons, List.map_cons, ← ih]
    rfl

/-- An object of strings with at least one field, a field a line. -/
theorem write_entries (entry : String × String) (entries : List (String × String)) :
    write indented (.object ((entry :: entries).map entryField)) =
      '\x7b' :: ("\n  ".toList ++ (Text.joinWith entrySeparator
        ((entry :: entries).map writeEntry) ++ '\n' :: '\x7d' :: [])) := by
  have hfields := writeFields_map_entryField 1 (entry :: entries)
  rw [write, writeAt, hfields]
  simp [bracket, Layout.lineStart, indented, entrySeparator]

theorem setField_eq_put (name : String) (value : Json) (fields : List (String × Json)) :
    setField name value fields = Table.put name value fields := by
  induction fields with
  | nil => rfl
  | cons field fields ih => rw [setField, Table.put, ih]

/-- The fields of an object are merged like the entries of a table. -/
theorem mergeFields_eq_entries (fields : List (String × Json)) :
    mergeFields fields = (Table.ofList fields).entries := by
  have hfold : ∀ table : Table String Json,
      fields.foldl (fun merged field => setField field.1 field.2 merged) table.entries =
        (fields.foldl (fun table field => table.insert field.1 field.2) table).entries := by
    induction fields with
    | nil => exact fun _ => rfl
    | cons field fields ih =>
      intro table
      rw [List.foldl_cons, List.foldl_cons, setField_eq_put]
      exact ih (table.insert field.1 field.2)
  exact hfold .empty

/-- Where no name comes twice, the fields are kept as they are. -/
theorem mergeFields_of_nodup {fields : List (String × Json)}
    (h : (fields.map Prod.fst).Nodup) : mergeFields fields = fields :=
  (mergeFields_eq_entries fields).trans (Table.entries_ofList h)

theorem map_fst_entryField (entries : List (String × String)) :
    (entries.map entryField).map Prod.fst = entries.map Prod.fst := by
  rw [List.map_map]
  rfl

/-- A written object of strings is read as the object. -/
theorem readValue_write_entries (h : ((entry :: entries).map Prod.fst).Nodup)
    (hfuel : (Text.joinWith entrySeparator ((entry :: entries).map writeEntry)).length < fuel) :
    ∃ behind, readValue (fuel + 1) offset
        (write indented (.object ((entry :: entries).map entryField)) ++ text) =
      .ok (.object ((entry :: entries).map entryField), behind, text) := by
  have hmerge := mergeFields_of_nodup ((map_fst_entryField (entry :: entries)).symm ▸ h)
  obtain ⟨fewer, rfl⟩ : ∃ fewer, fuel = fewer + 1 :=
    Nat.exists_eq_add_one.2 (Nat.zero_lt_of_lt hfuel)
  obtain ⟨behind, hread⟩ := @readFields_writeEntries fewer (offset + 4) text fewer entry entries
    (Nat.le_of_lt_succ hfuel) le_rfl
  rw [write_entries]
  generalize hjoined : Text.joinWith entrySeparator ((entry :: entries).map writeEntry) = joined
    at hread
  obtain ⟨rest, rfl⟩ : ∃ rest, joined = '\x22' :: rest := by
    rw [← hjoined]
    cases entries <;> exact ⟨_, rfl⟩
  have hspace : skipSpace (offset + 1)
      ("\n  ".toList ++ '\x22' :: (rest ++ '\n' :: '\x7d' :: text)) =
        (offset + 4, '\x22' :: (rest ++ '\n' :: '\x7d' :: text)) :=
    @skipSpace_append _ _ "\n  ".toList '\x22' (by decide) (by decide)
  have htext : '\x7b' :: ("\n  ".toList ++ ('\x22' :: rest ++ ['\n', '\x7d'])) ++ text =
      '\x7b' :: ("\n  ".toList ++ '\x22' :: (rest ++ '\n' :: '\x7d' :: text)) := by
    simp
  rw [List.cons_append] at hread
  refine ⟨behind, ?_⟩
  rw [htext, readValue]
  simp only [hspace, bind, Except.bind, hread, hmerge]
  rfl

/-- **Round trip.** An object of strings is read as it was written. -/
theorem parse_write_entries (h : (entries.map Prod.fst).Nodup) :
    parse (write indented (.object (entries.map entryField))) =
      .ok (.object (entries.map entryField)) := by
  cases entries with
  | nil => rfl
  | cons entry entries =>
    generalize hdocument : write indented (.object ((entry :: entries).map entryField)) = document
    have hwrite := hdocument.symm.trans (write_entries entry entries)
    obtain ⟨behind, hread⟩ := @readValue_write_entries document.length 0 [] entry entries h (by
      rw [hwrite]
      simp only [List.length_cons, List.length_append]
      omega)
    rw [hdocument, List.append_nil] at hread
    have hhead : document.head? = some '\x7b' := by rw [hwrite]; rfl
    have hstart : skipSpace 0 document = (0, document) := by
      rw [hwrite]
      exact @skipSpace_append _ _ [] '\x7b' rfl (by decide)
    unfold parse
    rw [hhead, hstart]
    simp only [hread, bind, Except.bind]
    rfl

/-! ## Printable texts -/

/-- The character is printable ASCII. -/
def isPrintable (c : Char) : Bool := 0x20 ≤ c.toNat && c.toNat ≤ 0x7E

theorem isPrintable_digitChar : ∀ n < 16, isPrintable (Nat.digitChar n) = true := by
  decide

theorem all_isPrintable_unicodeEscape {unit : Nat} (h : unit < 0x10000) :
    (unicodeEscape unit).all isPrintable = true := by
  rw [unicodeEscape_eq, hexDigits_four h]
  simp only [List.all_cons, List.all_nil, Bool.and_eq_true]
  refine ⟨by decide, by decide, ?_, ?_, ?_, ?_, trivial⟩
  all_goals exact isPrintable_digitChar _ (by omega)

/-- Characters are escaped in printable ASCII. -/
theorem all_isPrintable_escapeChar (c : Char) : (escapeChar c).all isPrintable = true := by
  have hvalid : c.toNat < 0xD800 ∨ 0xDFFF < c.toNat ∧ c.toNat < 0x110000 := c.valid
  unfold escapeChar
  split_ifs with _ _ _ _ _ _ _ hplain hbasic
  all_goals first | rfl | skip
  · simpa [isPrintable] using hplain
  · exact all_isPrintable_unicodeEscape hbasic
  · rw [List.all_append, all_isPrintable_unicodeEscape (by omega),
      all_isPrintable_unicodeEscape (by omega)]
    rfl

theorem all_isPrintable_writeString (content : String) :
    (writeString content).all isPrintable = true := by
  have hescape : (escape content.toList).all isPrintable = true := by
    refine List.all_eq_true.2 fun c hc => ?_
    obtain ⟨d, -, hd⟩ := List.mem_flatMap.1 hc
    exact List.all_eq_true.1 (all_isPrintable_escapeChar d) c hd
  rw [writeString, List.all_append, List.all_cons, hescape]
  rfl

theorem all_isPrintable_writeEntry (entry : String × String) :
    (writeEntry entry).all isPrintable = true := by
  rw [writeEntry, List.all_append, List.all_append, all_isPrintable_writeString,
    all_isPrintable_writeString]
  rfl

/-- The character is a line feed or printable ASCII. -/
def isWritten (c : Char) : Bool := c == '\n' || isPrintable c

theorem all_isWritten_of_isPrintable {text : Text} (h : text.all isPrintable = true) :
    text.all isWritten = true :=
  List.all_eq_true.2 fun c hc => Bool.or_eq_true_iff.2 (.inr (List.all_eq_true.1 h c hc))

/-- An object of strings is written in line feeds and printable ASCII. -/
theorem all_isWritten_write_entries (entries : List (String × String)) :
    (write indented (.object (entries.map entryField))).all isWritten = true := by
  cases entries with
  | nil => rfl
  | cons entry entries =>
    have hjoin : (Text.joinWith entrySeparator ((entry :: entries).map writeEntry)).all isWritten =
        true := by
      induction entries generalizing entry with
      | nil => exact all_isWritten_of_isPrintable (all_isPrintable_writeEntry entry)
      | cons next entries ih =>
        show (writeEntry entry ++ entrySeparator ++
          Text.joinWith entrySeparator ((next :: entries).map writeEntry)).all isWritten = true
        rw [List.all_append, List.all_append, ih next,
          all_isWritten_of_isPrintable (all_isPrintable_writeEntry entry)]
        rfl
    rw [write_entries, List.all_cons, List.all_append, List.all_append, hjoin]
    rfl

end PersistedQueries.Json
