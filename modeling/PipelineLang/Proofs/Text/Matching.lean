import Mathlib.Data.List.TakeWhile
import PipelineLang.Text.Matcher

/-!
# What matchers take

A matcher looks at what is behind the characters that it takes, so the same characters
may fit in one text and not in another one. The properties here say how far it looks.

## Main definitions

- `Matcher.Bounded` — it takes no more than there is
- `Matcher.Cuts`, `Matcher.Exact` — it fits what it has taken where nothing is behind it
- `Matcher.Rigid`, `Matcher.Stays` — it fits if more is behind a text that it fits
- `Matcher.Deaf` — it does not notice what is behind a text
- `Matcher.Counted` — how many characters of a class are among those it takes

## Main results

- `Matcher.Cuts.followedBy`, `Matcher.Deaf.followedBy` — one matcher behind another
- `Matcher.Counted.not_both` — matchers that count apart do not take the same

## Design notes

A matcher never gives back what it has taken, so it may fit a text and not fit it with
more behind it. This is why most properties are stated apart from each other.
-/

namespace PipelineLang.Matcher

/-- It takes no more than there is. -/
def Bounded (m : Matcher) : Prop := ∀ ⦃text n⦄, m text = some n → n ≤ text.length

/-- Behind a text that it fits, there may be more: then it takes the same. -/
def Rigid (m : Matcher) : Prop := ∀ ⦃text n⦄ rest, m text = some n → m (text ++ rest) = some n

/-- Behind a text that it fits, there may be more: then it takes something. -/
def Stays (m : Matcher) : Prop := ∀ ⦃text n⦄ rest, m text = some n → ∃ k, m (text ++ rest) = some k

/-- What it takes within a text it takes of the text alone. -/
def Cuts (m : Matcher) : Prop :=
  ∀ ⦃text rest n⦄, m (text ++ rest) = some n → n ≤ text.length → m text = some n

/-- If it takes a text and nothing behind it, it takes the text alone. -/
def Exact (m : Matcher) : Prop :=
  ∀ ⦃text rest⦄, m (text ++ rest) = some text.length → m text = some text.length

/-- It does not notice that `rest` is behind a text. -/
def Deaf (rest : List Char) (m : Matcher) : Prop := ∀ text, m (text ++ rest) = m text

/-- Among the characters that it takes, at least `least` and at most `most` are some of
`marks`. -/
def Counted (marks : List Char) (least most : Nat) (m : Matcher) : Prop :=
  ∀ ⦃text n⦄, m text = some n →
    least ≤ (text.take n).countP marks.contains ∧ (text.take n).countP marks.contains ≤ most

theorem Cuts.exact {m : Matcher} (h : Cuts m) : Exact m := fun _ _ hm => h hm (Nat.le_refl _)

theorem Rigid.stays {m : Matcher} (h : Rigid m) : Stays m := fun _ n rest hm => ⟨n, h rest hm⟩

/-- Of a matcher that keeps fitting, nothing comes of a text if nothing comes of more. -/
theorem Stays.eq_none {m : Matcher} (h : Stays m) {text rest : List Char}
    (hm : m (text ++ rest) = none) : m text = none := by
  cases htext : m text with
  | none => rfl
  | some n =>
    obtain ⟨k, hk⟩ := h rest htext
    rw [hm] at hk
    simp at hk

/-- Two matchers do not both take the same if they count its characters differently. -/
theorem Counted.not_both {marks : List Char} {a b : Matcher} {least most least' most' : Nat}
    (ha : Counted marks least most a) (hb : Counted marks least' most' b)
    (h : most < least' ∨ most' < least) {text : List Char} {n : Nat} (hn : a text = some n) :
    b text ≠ some n := by
  intro hb'
  have := ha hn
  have := hb hb'
  omega

variable {a b : Matcher} {text rest marks : List Char} {p : Char → Bool} {n k : Nat}

/-! ### Characters and runs -/

theorem char_eq_some : char p text = some n ↔ ∃ c tail, text = c :: tail ∧ p c ∧ n = 1 := by
  cases text with
  | nil => simp [char]
  | cons c tail =>
    simp only [char]
    constructor
    · intro h
      split at h
      · next hc =>
        obtain rfl := Option.some.inj h
        exact ⟨c, tail, rfl, hc, rfl⟩
      · simp at h
    · rintro ⟨d, rest, heq, hd, rfl⟩
      obtain ⟨rfl, rfl⟩ := List.cons.inj heq
      rw [if_pos hd]

theorem bounded_char (p : Char → Bool) : Bounded (char p) := by
  intro text n h
  obtain ⟨c, tail, rfl, -, rfl⟩ := char_eq_some.mp h
  simp

theorem rigid_char (p : Char → Bool) : Rigid (char p) := by
  intro text n rest h
  obtain ⟨c, tail, rfl, hc, rfl⟩ := char_eq_some.mp h
  exact char_eq_some.mpr ⟨c, tail ++ rest, rfl, hc, rfl⟩

theorem cuts_char (p : Char → Bool) : Cuts (char p) := by
  intro text rest n h hn
  obtain ⟨c, tail, heq, hc, rfl⟩ := char_eq_some.mp h
  cases text with
  | nil => simp at hn
  | cons d text =>
    obtain ⟨rfl, -⟩ := List.cons.inj heq
    exact char_eq_some.mpr ⟨d, text, rfl, hc, rfl⟩

theorem deaf_char (h : ∀ c ∈ rest.head?, p c = false) : Deaf rest (char p) := by
  intro text
  cases text with
  | cons c text => rfl
  | nil =>
    cases rest with
    | nil => rfl
    | cons c rest => simp [char, h c (by simp)]

theorem not_mem_marks (hall : ∀ mark ∈ marks, p mark = false) {c : Char} (hc : p c) :
    c ∉ marks := by
  intro hmem
  rw [hall c hmem] at hc
  simp at hc

theorem counted_char (hall : ∀ mark ∈ marks, p mark = false) : Counted marks 0 0 (char p) := by
  intro text n h
  obtain ⟨c, tail, rfl, hc, rfl⟩ := char_eq_some.mp h
  simp [not_mem_marks hall hc]

theorem counted_char_le (marks : List Char) (p : Char → Bool) : Counted marks 0 1 (char p) := by
  intro text n h
  obtain ⟨c, tail, rfl, -, rfl⟩ := char_eq_some.mp h
  have := List.countP_le_length (p := marks.contains) (l := [c])
  simpa using this

theorem counted_exactly {c : Char} (hc : c ∈ marks) : Counted marks 1 1 (exactly c) := by
  intro text n h
  obtain ⟨d, tail, rfl, hd, rfl⟩ := char_eq_some.mp h
  rw [beq_iff_eq] at hd
  simp [hd, hc]

theorem run_eq_some {least most : Nat} :
    run p least most text = some n ↔
      ((text.take most).takeWhile p).length = n ∧ least ≤ n := by
  simp only [run]
  split
  · next h => exact ⟨fun hn => by cases hn; exact ⟨rfl, h⟩, fun hn => by rw [hn.1]⟩
  · next h =>
    simp only [reduceCtorEq, false_iff, not_and]
    rintro rfl
    exact h

theorem runs_eq_some : runs p text = some n ↔ (text.takeWhile p).length = n ∧ n ≠ 0 := by
  simp only [runs]
  split
  · next h => simp only [reduceCtorEq, false_iff, not_and, Decidable.not_not]; omega
  · next h => exact ⟨fun hn => by cases hn; exact ⟨rfl, h⟩, fun hn => by rw [hn.1]⟩

theorem length_takeWhile_le (p : Char → Bool) (text : List Char) :
    (text.takeWhile p).length ≤ text.length := (List.takeWhile_prefix p).length_le

theorem bounded_run (p : Char → Bool) (least most : Nat) : Bounded (run p least most) := by
  intro text n h
  obtain ⟨rfl, -⟩ := run_eq_some.mp h
  have hle := length_takeWhile_le p (text.take most)
  rw [List.length_take] at hle
  omega

theorem bounded_runs (p : Char → Bool) : Bounded (runs p) := by
  intro text n h
  obtain ⟨rfl, -⟩ := runs_eq_some.mp h
  exact length_takeWhile_le p text

/-- A run that ends within a text ends there in the text alone. -/
theorem takeWhile_cut (h : ((text ++ rest).takeWhile p).length ≤ text.length) :
    text.takeWhile p = (text ++ rest).takeWhile p := by
  induction text with
  | nil =>
    have : (rest.takeWhile p) = [] := List.length_eq_zero_iff.mp (Nat.le_zero.mp h)
    exact this.symm
  | cons c text ih =>
    rw [List.cons_append, List.takeWhile_cons, List.takeWhile_cons]
    split
    · next hc =>
      rw [List.cons_append, List.takeWhile_cons_of_pos hc] at h
      rw [ih (by simpa using h)]
    · rfl

/-- A run goes on as far as it did if something else comes behind the text. -/
theorem takeWhile_append_of_head (h : ∀ c ∈ rest.head?, p c = false) :
    (text ++ rest).takeWhile p = text.takeWhile p := by
  induction text with
  | nil =>
    cases rest with
    | nil => rfl
    | cons c rest => rw [List.nil_append, List.takeWhile_cons, h c (by simp)]; rfl
  | cons c text ih =>
    rw [List.cons_append, List.takeWhile_cons, List.takeWhile_cons, ih]

theorem takeWhile_length_mono (p : Char → Bool) (text rest : List Char) :
    (text.takeWhile p).length ≤ ((text ++ rest).takeWhile p).length := by
  induction text with
  | nil => simp
  | cons c text ih =>
    rw [List.cons_append, List.takeWhile_cons, List.takeWhile_cons]
    split
    · simpa using ih
    · simp

theorem stays_run (p : Char → Bool) (least most : Nat) : Stays (run p least most) := by
  intro text n rest h
  obtain ⟨rfl, hn⟩ := run_eq_some.mp h
  refine ⟨_, run_eq_some.mpr ⟨rfl, ?_⟩⟩
  rw [List.take_append]
  exact Nat.le_trans hn (takeWhile_length_mono p _ _)

theorem cuts_run (p : Char → Bool) (least most : Nat) : Cuts (run p least most) := by
  intro text rest n h hn
  obtain ⟨rfl, hleast⟩ := run_eq_some.mp h
  refine run_eq_some.mpr ⟨congrArg List.length ?_, hleast⟩
  rw [List.take_append] at hn ⊢
  refine takeWhile_cut ?_
  have hall := length_takeWhile_le p (text.take most ++ rest.take (most - text.length))
  simp only [List.length_append, List.length_take] at hall hn ⊢
  omega

theorem cuts_runs (p : Char → Bool) : Cuts (runs p) := by
  intro text rest n h hn
  obtain ⟨rfl, hne⟩ := runs_eq_some.mp h
  exact runs_eq_some.mpr ⟨congrArg List.length (takeWhile_cut hn), hne⟩

theorem deaf_run {least most : Nat} (h : ∀ c ∈ rest.head?, p c = false) :
    Deaf rest (run p least most) := by
  intro text
  have hhead : ∀ c ∈ (rest.take (most - text.length)).head?, p c = false := by
    intro c hc
    rw [List.head?_take] at hc
    split at hc
    · simp at hc
    · exact h c hc
  simp only [run, List.take_append, takeWhile_append_of_head hhead]

theorem deaf_runs (h : ∀ c ∈ rest.head?, p c = false) : Deaf rest (runs p) := by
  intro text
  simp only [runs, takeWhile_append_of_head h]

theorem countP_takeWhile (hall : ∀ mark ∈ marks, p mark = false) (text : List Char) :
    (text.takeWhile p).countP marks.contains = 0 := by
  rw [List.countP_eq_zero]
  intro c hc
  simp [not_mem_marks hall (List.mem_takeWhile_imp hc)]

theorem take_length_takeWhile (p : Char → Bool) (text : List Char) :
    text.take (text.takeWhile p).length = text.takeWhile p :=
  (List.prefix_iff_eq_take.mp (List.takeWhile_prefix p)).symm

theorem counted_run {least most : Nat} (hall : ∀ mark ∈ marks, p mark = false) :
    Counted marks 0 0 (run p least most) := by
  intro text n h
  obtain ⟨rfl, -⟩ := run_eq_some.mp h
  have hle := length_takeWhile_le p (text.take most)
  have htake := take_length_takeWhile p (text.take most)
  rw [List.length_take] at hle
  rw [List.take_take, Nat.min_eq_left (by omega)] at htake
  rw [htake, countP_takeWhile hall]
  exact ⟨Nat.le_refl 0, Nat.le_refl 0⟩

theorem counted_runs (hall : ∀ mark ∈ marks, p mark = false) :
    Counted marks 0 0 (runs p) := by
  intro text n h
  obtain ⟨rfl, -⟩ := runs_eq_some.mp h
  rw [take_length_takeWhile, countP_takeWhile hall]
  exact ⟨Nat.le_refl 0, Nat.le_refl 0⟩

/-- Exactly `n` characters are the same `n` if more comes behind. -/
theorem rigid_digits (n : Nat) : Rigid (digits n) := by
  intro text k rest h
  obtain ⟨rfl, hn⟩ := run_eq_some.mp h
  refine run_eq_some.mpr ⟨?_, hn⟩
  have hmono := takeWhile_length_mono Char.isDigit (text.take n) (rest.take (n - text.length))
  have hall := length_takeWhile_le Char.isDigit ((text ++ rest).take n)
  have hle := length_takeWhile_le Char.isDigit (text.take n)
  rw [← List.take_append] at hmono
  rw [List.length_take] at hall hle
  omega

/-! ### Words -/

theorem word_eq_some {letters : List Char} :
    word letters text = some n ↔ letters <+: text ∧ n = letters.length := by
  simp only [word, List.isPrefixOf_iff_prefix]
  split
  · next h => simp [h, eq_comm]
  · next h => simp [h]

theorem bounded_word (letters : List Char) : Bounded (word letters) := by
  intro text n h
  obtain ⟨hpre, rfl⟩ := word_eq_some.mp h
  exact hpre.length_le

theorem rigid_word (letters : List Char) : Rigid (word letters) := by
  intro text n rest h
  obtain ⟨hpre, rfl⟩ := word_eq_some.mp h
  obtain ⟨tail, rfl⟩ := hpre
  exact word_eq_some.mpr ⟨⟨tail ++ rest, by rw [List.append_assoc]⟩, rfl⟩

theorem cuts_word (letters : List Char) : Cuts (word letters) := by
  intro text rest n h hn
  obtain ⟨hpre, rfl⟩ := word_eq_some.mp h
  exact word_eq_some.mpr ⟨List.prefix_of_prefix_length_le hpre ⟨rest, rfl⟩ hn, rfl⟩

theorem deaf_word {letters : List Char} (h : ∀ c ∈ rest.head?, c ∉ letters) :
    Deaf rest (word letters) := by
  intro text
  by_cases hle : letters.length ≤ text.length
  · cases htext : word letters text with
    | some n => exact rigid_word letters rest htext
    | none =>
      cases hall : word letters (text ++ rest) with
      | none => rfl
      | some n =>
        have hcut := cuts_word letters hall (by rwa [(word_eq_some.mp hall).2])
        rw [htext] at hcut
        simp at hcut
  · -- Letters are missing, and what is behind the text does not have the next one.
    have hnone : ∀ more : List Char, (∀ c ∈ more.head?, c ∉ letters) →
        word letters (text ++ more) = none := by
      intro more hmore
      cases hword : word letters (text ++ more) with
      | none => rfl
      | some n =>
        obtain ⟨⟨tail, htail⟩, -⟩ := word_eq_some.mp hword
        have hget := congrArg (·[text.length]?) htail
        simp only [List.getElem?_append_left (by omega : text.length < letters.length),
          List.getElem?_append_right (Nat.le_refl _), Nat.sub_self] at hget
        have hmem := List.mem_of_getElem? (List.getElem?_eq_getElem (l := letters)
          (by omega : text.length < letters.length))
        rw [List.getElem?_eq_getElem (by omega : text.length < letters.length)] at hget
        exact absurd hmem (hmore _ (by rw [List.head?_eq_getElem?, ← hget]; rfl))
    rw [hnone rest h, ← List.append_nil text, hnone [] (by simp)]

theorem counted_word {letters : List Char} {least most : Nat}
    (hleast : least ≤ letters.countP marks.contains)
    (hmost : letters.countP marks.contains ≤ most) : Counted marks least most (word letters) := by
  intro text n h
  obtain ⟨hpre, rfl⟩ := word_eq_some.mp h
  rw [← List.prefix_iff_eq_take.mp hpre]
  exact ⟨hleast, hmost⟩

/-! ### One matcher behind another -/

theorem followedBy_eq_some :
    a.followedBy b text = some k ↔
      ∃ m n, a text = some m ∧ b (text.drop m) = some n ∧ m + n = k := by
  simp only [followedBy, Option.bind_eq_bind, Option.bind_eq_some_iff, Option.pure_def,
    Option.some.injEq]
  constructor
  · rintro ⟨m, hm, n, hn, rfl⟩
    exact ⟨m, n, hm, hn, rfl⟩
  · rintro ⟨m, n, hm, hn, rfl⟩
    exact ⟨m, hm, n, hn, rfl⟩

theorem Bounded.followedBy (ha : Bounded a) (hb : Bounded b) : Bounded (a.followedBy b) := by
  intro text n h
  obtain ⟨m, k, hm, hk, rfl⟩ := followedBy_eq_some.mp h
  have := ha hm
  have := hb hk
  rw [List.length_drop] at this
  omega

theorem Rigid.followedBy (ha : Rigid a) (hbounded : Bounded a) (hb : Rigid b) :
    Rigid (a.followedBy b) := by
  intro text n rest h
  obtain ⟨m, k, hm, hk, rfl⟩ := followedBy_eq_some.mp h
  refine followedBy_eq_some.mpr ⟨m, k, ha rest hm, ?_, rfl⟩
  rw [List.drop_append_of_le_length (hbounded hm)]
  exact hb rest hk

theorem Stays.followedBy (hb : Stays b) (ha : Rigid a) (hbounded : Bounded a) :
    Stays (a.followedBy b) := by
  intro text n rest h
  obtain ⟨m, k, hm, hk, rfl⟩ := followedBy_eq_some.mp h
  obtain ⟨k', hk'⟩ := hb rest hk
  refine ⟨m + k', followedBy_eq_some.mpr ⟨m, k', ha rest hm, ?_, rfl⟩⟩
  rw [List.drop_append_of_le_length (hbounded hm)]
  exact hk'

theorem Cuts.followedBy (ha : Cuts a) (hb : Cuts b) : Cuts (a.followedBy b) := by
  intro text rest n h hn
  obtain ⟨m, k, hm, hk, rfl⟩ := followedBy_eq_some.mp h
  have hle : m ≤ text.length := by omega
  rw [List.drop_append_of_le_length hle] at hk
  exact followedBy_eq_some.mpr ⟨m, k, ha hm hle,
    hb hk (by rw [List.length_drop]; omega), rfl⟩

theorem Deaf.followedBy (ha : Deaf rest a) (hbounded : Bounded a) (hb : Deaf rest b) :
    Deaf rest (a.followedBy b) := by
  intro text
  simp only [Matcher.followedBy, ha text]
  cases hm : a text with
  | none => rfl
  | some m =>
    simp only [Option.bind_eq_bind, Option.bind_some]
    rw [List.drop_append_of_le_length (hbounded hm), hb]

/-- A character that may be behind a text, if what should come behind it is not. -/
theorem Deaf.exactly_followedBy (c : Char) (hb : Deaf rest b)
    (h : ∀ tail, rest = c :: tail → b tail = none) : Deaf rest ((exactly c).followedBy b) := by
  intro text
  cases text with
  | cons d text =>
    by_cases hd : d = c
    · subst hd
      simp [Matcher.followedBy, exactly, char, hb text]
    · simp [Matcher.followedBy, exactly, char, hd]
  | nil =>
    cases rest with
    | nil => rfl
    | cons d rest =>
      by_cases hd : d = c
      · subst hd
        simp [Matcher.followedBy, exactly, char, h rest rfl]
      · simp [Matcher.followedBy, exactly, char, hd]

theorem Counted.followedBy {least most least' most' : Nat} (ha : Counted marks least most a)
    (hb : Counted marks least' most' b) :
    Counted marks (least + least') (most + most') (a.followedBy b) := by
  intro text n h
  obtain ⟨m, k, hm, hk, rfl⟩ := followedBy_eq_some.mp h
  have := ha hm
  have := hb hk
  rw [List.take_add, List.countP_append]
  omega

/-! ### Optional and alternative matchers -/

theorem optional_eq (a : Matcher) (text : List Char) :
    a.optional text = some ((a text).getD 0) := rfl

theorem Bounded.optional (h : Bounded a) : Bounded a.optional := by
  intro text n hn
  obtain rfl := Option.some.inj hn
  cases ha : a text with
  | none => exact Nat.zero_le _
  | some m => exact h ha

theorem Cuts.optional (h : Cuts a) (hstays : Stays a) : Cuts a.optional := by
  intro text rest n hn hle
  obtain rfl := Option.some.inj hn
  cases ha : a (text ++ rest) with
  | none => rw [optional_eq, hstays.eq_none ha, Option.getD_none]
  | some m =>
    rw [ha, Option.getD_some] at hle
    rw [optional_eq, h ha hle, Option.getD_some]

theorem Deaf.optional (h : Deaf rest a) : Deaf rest a.optional := by
  intro text
  rw [optional_eq, optional_eq, h]

theorem Counted.optional {least most : Nat} (h : Counted marks least most a) :
    Counted marks 0 most a.optional := by
  intro text n hn
  obtain rfl := Option.some.inj hn
  cases ha : a text with
  | none => simp
  | some m => exact ⟨Nat.zero_le _, (h ha).2⟩

theorem orElse_eq_some :
    a.orElse b text = some n ↔ a text = some n ∨ a text = none ∧ b text = some n := by
  rw [orElse, Option.or_eq_some_iff]

theorem Bounded.orElse (ha : Bounded a) (hb : Bounded b) : Bounded (a.orElse b) := by
  intro text n h
  obtain h | ⟨-, h⟩ := orElse_eq_some.mp h
  · exact ha h
  · exact hb h

theorem Stays.orElse (ha : Stays a) (hb : Stays b) : Stays (a.orElse b) := by
  intro text n rest h
  cases hmore : a (text ++ rest) with
  | some k => exact ⟨k, orElse_eq_some.mpr (.inl hmore)⟩
  | none =>
    obtain h | ⟨-, h⟩ := orElse_eq_some.mp h
    · obtain ⟨k, hk⟩ := ha rest h
      rw [hmore] at hk
      simp at hk
    · obtain ⟨k, hk⟩ := hb rest h
      exact ⟨k, orElse_eq_some.mpr (.inr ⟨hmore, hk⟩)⟩

theorem Cuts.orElse (ha : Cuts a) (hstays : Stays a) (hb : Cuts b) : Cuts (a.orElse b) := by
  intro text rest n h hn
  obtain h | ⟨hnone, h⟩ := orElse_eq_some.mp h
  · exact orElse_eq_some.mpr (.inl (ha h hn))
  · exact orElse_eq_some.mpr (.inr ⟨hstays.eq_none hnone, hb h hn⟩)

theorem Deaf.orElse (ha : Deaf rest a) (hb : Deaf rest b) : Deaf rest (a.orElse b) := by
  intro text
  rw [Matcher.orElse, Matcher.orElse, ha, hb]

theorem Counted.orElse {least most : Nat} (ha : Counted marks least most a)
    (hb : Counted marks least most b) : Counted marks least most (a.orElse b) := by
  intro text n h
  obtain h | ⟨-, h⟩ := orElse_eq_some.mp h
  · exact ha h
  · exact hb h

/-- What the longer of two matchers takes, one of them takes, and the other one no more. -/
theorem longer_eq_some :
    a.longer b text = some n ↔
      (a text = some n ∧ ∀ k ∈ b text, k ≤ n) ∨ (b text = some n ∧ ∀ k ∈ a text, k ≤ n) := by
  simp only [longer]
  cases ha : a text <;> cases hb : b text <;> simp
  omega

theorem Bounded.longer (ha : Bounded a) (hb : Bounded b) : Bounded (a.longer b) := by
  intro text n h
  obtain ⟨h, -⟩ | ⟨h, -⟩ := longer_eq_some.mp h
  · exact ha h
  · exact hb h

theorem Exact.longer (ha : Exact a) (hb : Exact b) (habounded : Bounded a)
    (hbbounded : Bounded b) : Exact (a.longer b) := by
  intro text rest h
  refine longer_eq_some.mpr ?_
  obtain ⟨h, -⟩ | ⟨h, -⟩ := longer_eq_some.mp h
  · exact .inl ⟨ha h, fun k hk => hbbounded hk⟩
  · exact .inr ⟨hb h, fun k hk => habounded hk⟩

theorem Stays.longer (ha : Stays a) (hb : Stays b) : Stays (a.longer b) := by
  intro text n rest h
  have hsome : (∃ k, a (text ++ rest) = some k) ∨ (∃ k, b (text ++ rest) = some k) := by
    obtain ⟨h, -⟩ | ⟨h, -⟩ := longer_eq_some.mp h
    · exact .inl (ha rest h)
    · exact .inr (hb rest h)
  simp only [Matcher.longer]
  obtain ⟨k, hk⟩ | ⟨k, hk⟩ := hsome
  · rw [hk]
    cases b (text ++ rest) <;> exact ⟨_, rfl⟩
  · rw [hk]
    cases a (text ++ rest) <;> exact ⟨_, rfl⟩

theorem Cuts.longer (ha : Cuts a) (hb : Cuts b) (hastays : Stays a) (hbstays : Stays b) :
    Cuts (a.longer b) := by
  intro text rest n h hn
  -- Neither matcher takes more of the text alone than it takes with the rest behind it.
  have hle : ∀ {m : Matcher}, Cuts m → Stays m → (∀ k ∈ m (text ++ rest), k ≤ n) →
      ∀ k ∈ m text, k ≤ n := by
    intro m hcuts hstays hmore k hk
    obtain ⟨k', hk'⟩ := hstays rest hk
    have hk'n := hmore k' hk'
    have := hcuts hk' (by omega)
    rw [hk] at this
    obtain rfl := Option.some.inj this
    exact hk'n
  refine longer_eq_some.mpr ?_
  obtain ⟨h, hother⟩ | ⟨h, hother⟩ := longer_eq_some.mp h
  · exact .inl ⟨ha h hn, hle hb hbstays hother⟩
  · exact .inr ⟨hb h hn, hle ha hastays hother⟩

theorem Deaf.longer (ha : Deaf rest a) (hb : Deaf rest b) : Deaf rest (a.longer b) := by
  intro text
  simp only [Matcher.longer, ha text, hb text]

theorem Counted.longer {least most : Nat} (ha : Counted marks least most a)
    (hb : Counted marks least most b) : Counted marks least most (a.longer b) := by
  intro text n h
  obtain ⟨h, -⟩ | ⟨h, -⟩ := longer_eq_some.mp h
  · exact ha h
  · exact hb h

/-! ### Nothing, and the first of some words -/

theorem counted_none (marks : List Char) (least most : Nat) :
    Counted marks least most fun _ => none := by
  intro text n h
  simp at h

theorem cuts_none : Cuts fun _ => none := by
  intro text rest n h
  simp at h

theorem stays_none : Stays fun _ => none := by
  intro text n rest h
  simp at h

theorem bounded_none : Bounded fun _ => none := by
  intro text n h
  simp at h

theorem stays_firstWord (words : List (List Char)) : Stays (firstWord words) := by
  induction words with
  | nil => exact stays_none
  | cons letters words ih => exact (rigid_word letters).stays.orElse ih

theorem cuts_firstWord (words : List (List Char)) : Cuts (firstWord words) := by
  induction words with
  | nil => exact cuts_none
  | cons letters words ih => exact (cuts_word letters).orElse (rigid_word letters).stays ih

theorem bounded_firstWord (words : List (List Char)) : Bounded (firstWord words) := by
  induction words with
  | nil => exact bounded_none
  | cons letters words ih => exact (bounded_word letters).orElse ih

theorem deaf_firstWord {words : List (List Char)}
    (h : ∀ letters ∈ words, ∀ c ∈ rest.head?, c ∉ letters) : Deaf rest (firstWord words) := by
  induction words with
  | nil => exact fun _ => rfl
  | cons letters words ih =>
    rw [List.forall_mem_cons] at h
    exact (deaf_word h.1).orElse (ih h.2)

theorem counted_firstWord {words : List (List Char)} {least most : Nat}
    (h : ∀ letters ∈ words, least ≤ letters.countP marks.contains ∧
      letters.countP marks.contains ≤ most) : Counted marks least most (firstWord words) := by
  induction words with
  | nil => exact counted_none marks least most
  | cons letters words ih =>
    rw [List.forall_mem_cons] at h
    exact (counted_word h.1.1 h.1.2).orElse (ih h.2)

/-! ### Runs and signs before something else -/

/-- A run that another character ends is the same run if more comes behind. -/
theorem stays_run_followedBy {q : Char → Bool} {least most : Nat} (hb : Stays b)
    (hq : ∀ c, q c → p c = false) :
    Stays ((run p least most).followedBy ((char q).followedBy b)) := by
  intro text n rest h
  obtain ⟨m, k, hm, hk, rfl⟩ := followedBy_eq_some.mp h
  obtain ⟨one, j, hone, hj, rfl⟩ := followedBy_eq_some.mp hk
  obtain ⟨c, tail, hdrop, hc, rfl⟩ := char_eq_some.mp hone
  obtain ⟨j', hj'⟩ := hb rest hj
  have htext : text = text.take m ++ c :: tail := by rw [← hdrop, List.take_append_drop]
  have hlength : m < text.length := by
    have := congrArg List.length hdrop
    rw [List.length_drop, List.length_cons] at this
    omega
  -- The character that ends the run stands in the text, so the run ends there too.
  have hmore : run p least most (text ++ rest) = some m := by
    obtain ⟨hrun, hleast⟩ := run_eq_some.mp hm
    refine run_eq_some.mpr ⟨?_, hleast⟩
    by_cases hmost : most ≤ text.length
    · rwa [List.take_append_of_le_length hmost]
    · rw [List.take_of_length_le (by omega)] at hrun
      have htake : text.takeWhile p = text.take m := by
        rw [← hrun, take_length_takeWhile]
      have hall : ∀ d ∈ text.take m, p d := by
        intro d hd
        rw [← htake] at hd
        exact List.mem_takeWhile_imp hd
      rw [List.take_append, List.take_of_length_le (by omega), htext, List.append_assoc,
        List.takeWhile_append_of_pos hall, List.cons_append,
        List.takeWhile_cons_of_neg (by simp [hq c hc]), List.append_nil, List.length_take]
      omega
  have hjmore : b ((text ++ rest).drop (m + 1)) = some j' := by
    rw [List.drop_append_of_le_length (by omega), ← List.drop_drop]
    exact hj'
  refine ⟨m + (1 + j'), followedBy_eq_some.mpr ⟨m, 1 + j', hmore, followedBy_eq_some.mpr
    ⟨1, j', ?_, ?_, rfl⟩, rfl⟩⟩
  · rw [List.drop_append_of_le_length (by omega), hdrop]
    exact char_eq_some.mpr ⟨c, tail ++ rest, rfl, hc, rfl⟩
  · rwa [List.drop_drop]

/-- A sign that need not be there is told by the first character alone. -/
theorem stays_optional_followedBy (hb : Stays b) (hnil : b [] = none) :
    Stays ((char p).optional.followedBy b) := by
  intro text n rest h
  obtain ⟨m, k, hm, hk, rfl⟩ := followedBy_eq_some.mp h
  cases text with
  | nil => rw [List.drop_nil, hnil] at hk; simp at hk
  | cons c text =>
    obtain ⟨k', hk'⟩ := hb rest hk
    have hhead : (char p).optional (c :: text ++ rest) = some m := hm
    refine ⟨m + k', followedBy_eq_some.mpr ⟨m, k', hhead, ?_, rfl⟩⟩
    have hle := (bounded_char p).optional hm
    rw [List.drop_append_of_le_length hle]
    exact hk'

end PipelineLang.Matcher
