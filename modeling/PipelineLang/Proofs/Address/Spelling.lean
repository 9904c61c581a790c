import PipelineLang.Proofs.Literal.Grammars

/-!
# How addresses are written

An address is written as a dotted quad, or as groups with colons between them. The groups are
eight, or a `::` stands for those that are left out; a dotted quad at the end counts as two.

## Main definitions

- `Address.Octet`, `Address.Group`, `Address.Quad`, `Address.GroupRun` — the parts of an address
- `Address.Spelling` — an address as it is written
- `Address.Spelling.text`, `Address.Spelling.address` — its text, and the address that it denotes
- `Address.Octet.IsRefused` — an octet that no address has

## Main results

- `Address.ofText?_eq_none_iff` — a text denotes no address if one of its octets is refused
- `Address.ofText?_text` — else it denotes the address that it spells

## Design notes

A part is a text that is well-formed, so each spelling is one. An octet that is too great is
well-formed as well: it is told from the others only when its address is asked for.
-/

namespace PipelineLang

namespace Address

/-- One to four hexadecimal digits. -/
def groupLanguage : Language Char := Words.run Ascii.isHexDigit 1 4

/-- A part of a dotted quad as it is written. -/
structure Octet where
  digits : List Char
  digits_mem : digits ∈ octetLanguage

/-- A group as it is written. -/
structure Group where
  digits : List Char
  digits_mem : digits ∈ groupLanguage

namespace Octet

/-- The number that an octet spells. -/
def value (octet : Octet) : Nat := Ascii.number 10 octet.digits

/-- No address has an octet above 255, or one with a zero before its other digits. -/
def IsRefused (octet : Octet) : Prop :=
  255 < octet.value ∨ octet.digits.head? = some '0' ∧ 1 < octet.digits.length

instance (octet : Octet) : Decidable octet.IsRefused := inferInstanceAs (Decidable (_ ∨ _))

end Octet

/-- The number that a group spells. -/
def Group.value (group : Group) : Nat := Ascii.number 16 group.digits

/-- A dotted quad as it is written. -/
structure Quad where
  first : Octet
  second : Octet
  third : Octet
  fourth : Octet

namespace Quad

/-- The parts of a dotted quad, from left to right. -/
def octets (quad : Quad) : List Octet := [quad.first, quad.second, quad.third, quad.fourth]

/-- A dotted quad with points between its parts. -/
def text (quad : Quad) : List Char := ['.'].intercalate (quad.octets.map (·.digits))

/-- The two groups that a dotted quad stands for. -/
def values (quad : Quad) : List Nat :=
  [256 * quad.first.value + quad.second.value, 256 * quad.third.value + quad.fourth.value]

end Quad

/-- Groups with colons between them, behind which a dotted quad may stand. -/
structure GroupRun where
  groups : List Group
  quad : Option Quad

namespace GroupRun

/-- The texts between the colons. -/
def parts (run : GroupRun) : List (List Char) :=
  run.groups.map (·.digits) ++ run.quad.toList.map Quad.text

/-- Groups with colons between them. -/
def text (run : GroupRun) : List Char := [':'].intercalate run.parts

/-- The number of groups, a dotted quad counted as two. -/
def size (run : GroupRun) : Nat := run.groups.length + 2 * run.quad.toList.length

/-- The parts of the dotted quad behind the groups. -/
def octets (run : GroupRun) : List Octet := run.quad.toList.flatMap Quad.octets

/-- The numbers of the groups. -/
def values (run : GroupRun) : List Nat :=
  run.groups.map Group.value ++ run.quad.toList.flatMap Quad.values

end GroupRun

/-- An address as it is written. -/
inductive Spelling where
  | quad (quad : Quad)
  /-- All groups of an address. -/
  | full (run : GroupRun) (size_eq : run.size = 8)
  /-- Groups before and behind a `::`, which stands for one group of zeros or more. -/
  | gap (front : List Group) (back : GroupRun) (size_le : front.length + back.size ≤ 7)

namespace Spelling

/-- An address as it is spelled. -/
def text : Spelling → List Char
  | .quad written => written.text
  | .full run _ => run.text
  | .gap front back _ => (GroupRun.mk front none).text ++ ':' :: ':' :: back.text

/-- The octets of the dotted quad in an address. -/
def octets : Spelling → List Octet
  | .quad written => written.octets
  | .full run _ => run.octets
  | .gap _ back _ => back.octets

/-- The address that is written. -/
def address : Spelling → Address
  | .quad written => ofOctets (written.octets.map Octet.value)
  | .full run _ => ofGroups run.values
  | .gap front back _ => ofGroups (front.map Group.value ++
      List.replicate (8 - front.length - back.size) 0 ++ back.values)

end Spelling

/-! ### Texts that are split -/

theorem splitAt_eq_splitOn (mark : Char) (text : List Char) :
    splitAt mark text = text.splitOn mark := by
  induction text with
  | nil => rfl
  | cons c text ih =>
    rw [splitAt, List.splitOn, List.splitOnP_cons_eq_if_modifyHead, ← List.splitOn, ← ih]
    split
    · rfl
    · cases hsplit : splitAt mark text with
      | nil => exact absurd (ih.symm.trans hsplit) (List.splitOn_ne_nil _ _)
      | cons piece pieces => rfl

theorem splitAt_intercalate {mark : Char} {parts : List (List Char)}
    (h : ∀ part ∈ parts, mark ∉ part) (hne : parts ≠ []) :
    splitAt mark ([mark].intercalate parts) = parts := by
  rw [splitAt_eq_splitOn, List.splitOn_intercalate mark h hne]

/-- Each character but the mark is in some piece. -/
theorem exists_mem_splitAt {mark c : Char} {text : List Char} (hc : c ∈ text) (hne : c ≠ mark) :
    ∃ piece ∈ splitAt mark text, c ∈ piece := by
  induction text with
  | nil => simp at hc
  | cons d text ih =>
    rw [splitAt]
    split
    · next hmark =>
      obtain rfl := beq_iff_eq.mp hmark
      obtain ⟨piece, hpiece, hmem⟩ := ih (List.mem_of_ne_of_mem hne hc)
      exact ⟨piece, List.mem_cons_of_mem _ hpiece, hmem⟩
    · obtain rfl | hc := List.mem_cons.mp hc
      · split
        · exact ⟨[c], List.mem_singleton_self _, List.mem_singleton_self _⟩
        · exact ⟨_, List.mem_cons_self, List.mem_cons_self⟩
      · obtain ⟨piece, hpiece, hmem⟩ := ih hc
        split
        · next hnil => simp [hnil] at hpiece
        · next first pieces hpieces =>
          rw [hpieces] at hpiece
          obtain rfl | hpiece := List.mem_cons.mp hpiece
          · exact ⟨_, List.mem_cons_self, List.mem_cons_of_mem _ hmem⟩
          · exact ⟨piece, List.mem_cons_of_mem _ hpiece, hmem⟩

/-- Up to a first colon there is no `::`. -/
theorem breakAtGap_append {piece : List Char} (h : ':' ∉ piece) (rest : List Char) :
    breakAtGap (piece ++ rest) =
      (breakAtGap rest).map fun parts => (piece ++ parts.1, parts.2) := by
  induction piece with
  | nil => simp
  | cons c piece ih =>
    rw [List.mem_cons, not_or] at h
    rw [List.cons_append, breakAtGap, ih h.2, Option.map_map]
    · rfl
    · rintro rest rfl
      exact absurd rfl h.1

theorem breakAtGap_colon {c : Char} (hc : c ≠ ':') (rest : List Char) :
    breakAtGap (':' :: c :: rest) =
      (breakAtGap (c :: rest)).map fun parts => (':' :: parts.1, parts.2) := by
  rw [breakAtGap]
  rintro rest -
  rintro ⟨⟩
  exact hc rfl

/-- Texts that may stand between colons. -/
def AreParts (parts : List (List Char)) : Prop := ∀ part ∈ parts, ':' ∉ part ∧ part ≠ []

theorem AreParts.exists_intercalate {part : List Char} {parts : List (List Char)}
    (h : AreParts (part :: parts)) :
    ∃ c more, [':'].intercalate (part :: parts) = c :: more ∧ c ≠ ':' := by
  obtain ⟨hcolon, hne⟩ := h part List.mem_cons_self
  obtain ⟨c, more, rfl⟩ := List.exists_cons_of_ne_nil hne
  have hc : c ≠ ':' := fun heq => hcolon (heq ▸ List.mem_cons_self)
  cases parts with
  | nil => exact ⟨c, more, List.intercalate_singleton, hc⟩
  | cons next parts => exact ⟨c, _, List.intercalate_cons_cons, hc⟩

/-- Between parts with single colons there is no `::`. -/
theorem AreParts.breakAtGap {parts : List (List Char)} (h : AreParts parts) (rest : List Char) :
    breakAtGap ([':'].intercalate parts ++ rest) =
      (breakAtGap rest).map fun found => ([':'].intercalate parts ++ found.1, found.2) := by
  induction parts with
  | nil => simp
  | cons part parts ih =>
    cases parts with
    | nil =>
      rw [List.intercalate_singleton]
      exact breakAtGap_append (h part List.mem_cons_self).1 rest
    | cons next parts =>
      have hbehind : AreParts (next :: parts) := fun other hother =>
        h other (List.mem_cons_of_mem _ hother)
      have ih := ih hbehind
      obtain ⟨c, more, hnext, hc⟩ := hbehind.exists_intercalate
      rw [hnext] at ih
      rw [List.intercalate_cons_cons, hnext, List.append_assoc, List.append_assoc,
        breakAtGap_append (h part List.mem_cons_self).1, List.singleton_append, List.cons_append,
        breakAtGap_colon hc, ← List.cons_append, ih, Option.map_map, Option.map_map]
      congr 1
      funext found
      simp

/-! ### Octets and groups -/

theorem Octet.isDigit (octet : Octet) : ∀ c ∈ octet.digits, c.isDigit := octet.digits_mem.2.2

theorem Group.isHexDigit (group : Group) : ∀ c ∈ group.digits, Ascii.isHexDigit c :=
  group.digits_mem.2.2

theorem Group.ne_nil (group : Group) : group.digits ≠ [] :=
  List.ne_nil_of_length_pos group.digits_mem.1

theorem Octet.ne_nil (octet : Octet) : octet.digits ≠ [] :=
  List.ne_nil_of_length_pos octet.digits_mem.1

theorem Octet.not_mem (octet : Octet) {c : Char} (hc : c.isDigit = false) : c ∉ octet.digits := by
  intro hmem
  rw [octet.isDigit c hmem] at hc
  simp at hc

theorem Group.not_mem (group : Group) {c : Char} (hc : Ascii.isHexDigit c = false) :
    c ∉ group.digits := by
  intro hmem
  rw [group.isHexDigit c hmem] at hc
  simp at hc

theorem octet?_eq (octet : Octet) :
    octet? octet.digits = if octet.IsRefused then none else some octet.value := by
  have hempty : octet.digits.isEmpty = false := by simpa using octet.ne_nil
  have hlength : decide (3 < octet.digits.length) = false := by simpa using octet.digits_mem.2.1
  have hall : octet.digits.all Char.isDigit := List.all_eq_true.mpr octet.isDigit
  simp only [octet?, hempty, hlength, hall, Octet.IsRefused, Octet.value, Bool.false_or,
    Bool.not_true, Bool.or_eq_true, Bool.and_eq_true, beq_iff_eq, decide_eq_true_eq]
  congr 1
  exact propext or_comm

theorem group?_eq (group : Group) : group? group.digits = some group.value := by
  have hempty : group.digits.isEmpty = false := by simpa using group.ne_nil
  have hlength : decide (4 < group.digits.length) = false := by simpa using group.digits_mem.2.1
  have hall : group.digits.all Ascii.isHexDigit := List.all_eq_true.mpr group.isHexDigit
  simp [group?, hempty, hlength, hall, Group.value]

theorem mapM_octet? (octets : List Octet) :
    (octets.map (·.digits)).mapM octet? =
      if ∃ octet ∈ octets, octet.IsRefused then none else some (octets.map Octet.value) := by
  induction octets with
  | nil => simp
  | cons octet octets ih =>
    rw [List.map_cons, List.mapM_cons, octet?_eq, ih]
    by_cases hfirst : octet.IsRefused
    · simp [hfirst]
    · by_cases hrest : ∃ octet ∈ octets, octet.IsRefused
      · simp [hfirst, hrest]
      · simp [hfirst, hrest]

theorem mapM_group? (groups : List Group) :
    (groups.map (·.digits)).mapM group? = some (groups.map Group.value) := by
  induction groups with
  | nil => rfl
  | cons group groups ih => simp [group?_eq, ih]

/-! ### Dotted quads -/

theorem Quad.text_eq (quad : Quad) :
    quad.text = quad.first.digits ++ '.' :: (quad.second.digits ++
      '.' :: (quad.third.digits ++ '.' :: quad.fourth.digits)) := by
  simp [text, octets, List.intercalate_cons_cons]

theorem Quad.octets?_text (quad : Quad) :
    octets? quad.text =
      if ∃ octet ∈ quad.octets, octet.IsRefused then none
      else some (quad.octets.map Octet.value) := by
  have hparts : ∀ part ∈ quad.octets.map (·.digits), '.' ∉ part := by
    intro part hpart
    obtain ⟨octet, -, rfl⟩ := List.mem_map.mp hpart
    exact octet.not_mem (by decide)
  rw [octets?, text, splitAt_intercalate hparts (by simp [octets]), mapM_octet?]
  split
  · rfl
  · simp [octets]

theorem Quad.point_mem (quad : Quad) : '.' ∈ quad.text := by
  simp [quad.text_eq]

theorem Quad.colon_not_mem (quad : Quad) : ':' ∉ quad.text := by
  have hcolon : ∀ octet : Octet, ':' ∉ octet.digits := fun octet => octet.not_mem (by decide)
  simp [quad.text_eq, hcolon]

/-- A text without points is no dotted quad. -/
theorem octets?_of_point_not_mem {text : List Char} (h : '.' ∉ text) : octets? text = none := by
  have hsplit : splitAt '.' text = [text] := by
    have hparts : ∀ part ∈ [text], '.' ∉ part := by simpa using h
    rw [← splitAt_intercalate hparts (by simp), List.intercalate_singleton]
  rw [octets?, hsplit]
  cases h : octet? text <;> simp [h]

/-- Nor is a text with a colon. -/
theorem octets?_of_colon_mem {text : List Char} (h : ':' ∈ text) : octets? text = none := by
  obtain ⟨piece, hpiece, hmem⟩ := exists_mem_splitAt h (by decide : ':' ≠ '.')
  have hnone : octet? piece = none := by
    have hall : piece.all Char.isDigit = false := by
      rw [List.all_eq_false]
      exact ⟨':', hmem, by decide⟩
    simp [octet?, hall]
  have hmapM : ∀ {pieces : List (List Char)}, piece ∈ pieces → pieces.mapM octet? = none := by
    intro pieces hpieces
    induction pieces with
    | nil => simp at hpieces
    | cons first pieces ih =>
      rw [List.mapM_cons]
      obtain rfl | hpieces := List.mem_cons.mp hpieces
      · rw [hnone]
        rfl
      · cases octet? first <;> simp [ih hpieces]
  rw [octets?, hmapM hpiece]
  rfl

/-! ### Groups with colons between them -/

theorem Quad.lastGroups?_text (quad : Quad) :
    lastGroups? quad.text =
      if ∃ octet ∈ quad.octets, octet.IsRefused then none else some quad.values := by
  rw [lastGroups?, quad.octets?_text]
  split_ifs
  · have hall : quad.text.all Ascii.isHexDigit = false := by
      rw [List.all_eq_false]
      exact ⟨'.', quad.point_mem, by decide⟩
    simp [group?, hall]
  · rfl

theorem lastGroups?_group (group : Group) : lastGroups? group.digits = some [group.value] := by
  rw [lastGroups?, octets?_of_point_not_mem (group.not_mem (by decide)), group?_eq]
  rfl

namespace GroupRun

variable (run : GroupRun)

theorem areParts : AreParts run.parts := by
  intro part hpart
  obtain hpart | hpart := List.mem_append.mp hpart
  · obtain ⟨group, -, rfl⟩ := List.mem_map.mp hpart
    exact ⟨group.not_mem (by decide), group.ne_nil⟩
  · obtain ⟨quad, -, rfl⟩ := List.mem_map.mp hpart
    exact ⟨quad.colon_not_mem, List.ne_nil_of_mem quad.point_mem⟩

theorem length_values : run.values.length = run.size := by
  cases hquad : run.quad <;> simp [values, size, hquad, Quad.values]

theorem text_eq_nil_iff : run.text = [] ↔ run.parts = [] := by
  refine ⟨fun h => ?_, fun h => by rw [text, h]; rfl⟩
  cases hparts : run.parts with
  | nil => rfl
  | cons part parts =>
    obtain ⟨c, more, htext, -⟩ := (hparts ▸ run.areParts).exists_intercalate
    rw [text, hparts, htext] at h
    simp at h

theorem splitAt_text (h : run.parts ≠ []) : splitAt ':' run.text = run.parts :=
  splitAt_intercalate (fun part hpart => (run.areParts part hpart).1) h

/-- Up to an empty text, only the dotted quad can be without a value. -/
theorem pieceGroups?_parts (h : run.parts ≠ []) :
    pieceGroups? run.parts =
      if ∃ octet ∈ run.octets, octet.IsRefused then none else some run.values := by
  obtain ⟨groups, quad⟩ := run
  induction groups with
  | nil =>
    cases quad with
    | none => exact absurd rfl h
    | some quad => simpa [parts, octets, values, pieceGroups?] using quad.lastGroups?_text
  | cons group groups ih =>
    cases hparts : (GroupRun.mk groups quad).parts with
    | nil =>
      obtain ⟨hgroups, hquad⟩ := List.append_eq_nil_iff.mp hparts
      obtain rfl := List.map_eq_nil_iff.mp hgroups
      cases quad with
      | none => simpa [parts, octets, values, pieceGroups?] using lastGroups?_group group
      | some quad => simp at hquad
    | cons part parts =>
      have ih := ih (by simp [hparts])
      have hcons : (GroupRun.mk (group :: groups) quad).parts = group.digits :: part :: parts :=
        congrArg (group.digits :: ·) hparts
      rw [hparts] at ih
      rw [hcons, pieceGroups?, group?_eq, ih]
      · show _ = if ∃ octet ∈ (GroupRun.mk groups quad).octets, octet.IsRefused then none
          else some (group.value :: (GroupRun.mk groups quad).values)
        split_ifs <;> rfl
      · simp

theorem groups?_text :
    groups? run.text =
      if ∃ octet ∈ run.octets, octet.IsRefused then none else some run.values := by
  by_cases hparts : run.parts = []
  · rw [run.text_eq_nil_iff.mpr hparts]
    obtain ⟨hgroups, hquad⟩ := List.append_eq_nil_iff.mp hparts
    simp only [List.map_eq_nil_iff] at hgroups hquad
    simp [groups?, octets, values, hgroups, hquad]
  · have hempty : run.text.isEmpty = false := by
      rw [List.isEmpty_eq_false_iff]
      exact mt run.text_eq_nil_iff.mp hparts
    rw [groups?, hempty, run.splitAt_text hparts, if_neg Bool.false_ne_true,
      run.pieceGroups?_parts hparts]

theorem leadingGroups?_text (front : List Group) :
    leadingGroups? (GroupRun.mk front none).text = some (front.map Group.value) := by
  cases front with
  | nil => rfl
  | cons group front =>
    have hparts : (GroupRun.mk (group :: front) none).parts = (group :: front).map (·.digits) := by
      simp [parts]
    have hne : (GroupRun.mk (group :: front) none).parts ≠ [] := by simp [hparts]
    have hempty : (GroupRun.mk (group :: front) none).text.isEmpty = false := by
      rw [List.isEmpty_eq_false_iff]
      exact mt (text_eq_nil_iff _).mp hne
    rw [leadingGroups?, hempty, splitAt_text _ hne, if_neg Bool.false_ne_true, hparts, mapM_group?]

theorem breakAtGap_text_append (rest : List Char) :
    breakAtGap (run.text ++ rest) =
      (breakAtGap rest).map fun found => (run.text ++ found.1, found.2) :=
  run.areParts.breakAtGap rest

theorem breakAtGap_text : breakAtGap run.text = none := by
  have h := run.breakAtGap_text_append []
  rwa [List.append_nil] at h

end GroupRun

/-! ### Addresses -/

namespace Spelling

/-- All groups of an address have colons between them. -/
theorem colon_mem_full {run : GroupRun} (h : run.size = 8) : ':' ∈ run.text := by
  have hlength : 1 < run.parts.length := by
    rw [GroupRun.size] at h
    have hquad : run.quad.toList.length ≤ 1 := by cases run.quad <;> simp
    rw [GroupRun.parts, List.length_append, List.length_map, List.length_map]
    omega
  rw [GroupRun.text]
  match run.parts, hlength with
  | first :: second :: parts, _ => simp [List.intercalate_cons_cons]

/-- A text denotes the address that it spells, unless an octet in it is refused. -/
theorem ofText?_eq (spelling : Spelling) :
    ofText? spelling.text =
      if ∃ octet ∈ spelling.octets, octet.IsRefused then none else some spelling.address := by
  cases spelling with
  | quad quad =>
    -- Where it is no dotted quad, it is not the last piece of groups either.
    have hgroups : (GroupRun.mk [] (some quad)).text = quad.text := List.intercalate_singleton
    have hall := (GroupRun.mk [] (some quad)).groups?_text
    have hoctets : (GroupRun.mk [] (some quad)).octets = quad.octets := by
      simp [GroupRun.octets]
    rw [hgroups, hoctets] at hall
    have hbreak := (GroupRun.mk [] (some quad)).breakAtGap_text
    rw [hgroups] at hbreak
    rw [text, octets, ofText?, quad.octets?_text]
    split_ifs with hrefused
    · rw [if_pos hrefused] at hall
      simp [allGroups?, hbreak, hall]
    · rfl
  | full run hsize =>
    have hlength := run.length_values
    rw [hsize] at hlength
    rw [text, octets, ofText?, octets?_of_colon_mem (colon_mem_full hsize), allGroups?,
      run.breakAtGap_text]
    simp only [run.groups?_text]
    split_ifs
    · rfl
    · simp [hlength, address]
  | gap front back hsize =>
    have hbreak := (GroupRun.mk front none).breakAtGap_text_append (':' :: ':' :: back.text)
    rw [breakAtGap, Option.map_some, List.append_nil] at hbreak
    have hcolon : ':' ∈ (GroupRun.mk front none).text ++ ':' :: ':' :: back.text := by simp
    rw [text, octets, ofText?, octets?_of_colon_mem hcolon, allGroups?, hbreak]
    simp only [GroupRun.leadingGroups?_text, back.groups?_text]
    split_ifs
    · rfl
    · simp only [Option.bind_eq_bind, Option.bind_some, List.length_map, back.length_values,
        if_pos hsize, Option.map_some, address]

end Spelling

theorem ofText?_eq_none_iff (spelling : Spelling) :
    ofText? spelling.text = none ↔ ∃ octet ∈ spelling.octets, octet.IsRefused := by
  rw [spelling.ofText?_eq]
  split_ifs with h <;> simp [h]

theorem ofText?_text {spelling : Spelling} (h : ¬ ∃ octet ∈ spelling.octets, octet.IsRefused) :
    ofText? spelling.text = some spelling.address := by
  rw [spelling.ofText?_eq, if_neg h]

end Address

end PipelineLang
