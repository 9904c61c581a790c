import Mathlib.Computability.Language
import PipelineLang.Proofs.Text.Matching

/-!
# The longest word of a language

A matcher never gives back what it has taken, and yet it may take the longest word of a
language from every text. One matcher behind another one does so if what the first one
goes on with is never of use to the second one.

## Main definitions

- `Words.char`, `Words.run`, `Words.runs`, `Words.list` — the languages of single matchers
- `IsLongest` — the length of the longest word at the head of a text
- `Matcher.TakesLongest` — what a matcher takes is the longest word of a language
- `Words.Yields` — a language that loses nothing if words of another one are as long as
  they can be

## Main results

- `Matcher.TakesLongest.followedBy` — one matcher behind another one
- `Matcher.TakesLongest.orElse`, `Matcher.TakesLongest.longer` — one of two matchers

## Design notes

The languages do not speak of matchers: they are sets of words, combined by the operations
of regular expressions.
-/

namespace PipelineLang

/-! ### Languages of words -/

namespace Words

/-- One character with the property `p`. -/
def char (p : Char → Bool) : Language Char := {word | ∃ c, p c ∧ word = [c]}

/-- At least `least` and at most `most` characters with the property `p`. -/
def run (p : Char → Bool) (least most : Nat) : Language Char :=
  {word | least ≤ word.length ∧ word.length ≤ most ∧ ∀ c ∈ word, p c}

/-- One or more characters with the property `p`. -/
def runs (p : Char → Bool) : Language Char := {word | word ≠ [] ∧ ∀ c ∈ word, p c}

/-- The words of a list. -/
def list (words : List (List Char)) : Language Char := {word | word ∈ words}

/-- All words have `n` characters. -/
def HasLength (language : Language Char) (n : Nat) : Prop := ∀ word ∈ language, word.length = n

/-- All characters of the words have the property `p`. -/
def IsOver (language : Language Char) (p : Char → Bool) : Prop :=
  ∀ word ∈ language, ∀ c ∈ word, p c

/-- The first characters of the words have the property `p`. -/
def StartsWith (language : Language Char) (p : Char → Bool) : Prop :=
  ∀ word ∈ language, ∀ c ∈ word.head?, p c

/-- Nothing is lost if a word of `first` is as long as it can be before a word of `second`:
what it goes on with is no shorter than a word of `second` that stands in its place. -/
def Yields (first second : Language Char) : Prop :=
  ∀ ⦃front back word⦄, front ∈ first → front ++ back ∈ first → back ≠ [] → word ∈ second →
    word <+: back ∨ back <+: word → [] ∈ second ∧ word.length ≤ back.length

variable {first second language : Language Char} {p q : Char → Bool} {m n : Nat}

theorem HasLength.mul (hfirst : HasLength first m) (hsecond : HasLength second n) :
    HasLength (first * second) (m + n) := by
  rintro - ⟨front, hfront, back, hback, rfl⟩
  simp only [List.length_append, hfirst front hfront, hsecond back hback]

theorem hasLength_char (p : Char → Bool) : HasLength (char p) 1 := by
  rintro - ⟨c, -, rfl⟩
  rfl

theorem hasLength_run (p : Char → Bool) (n : Nat) : HasLength (run p n n) n := by
  rintro word ⟨hleast, hmost, -⟩
  exact Nat.le_antisymm hmost hleast

theorem isOver_char (h : ∀ c, p c → q c) : IsOver (char p) q := by
  rintro - ⟨c, hc, rfl⟩ d hd
  obtain rfl := List.mem_singleton.mp hd
  exact h d hc

theorem isOver_run (least most : Nat) : IsOver (run p least most) p := fun _ h => h.2.2

theorem isOver_runs (h : ∀ c, p c → q c) : IsOver (runs p) q :=
  fun _ hword c hc => h c (hword.2 c hc)

theorem IsOver.mul (hfirst : IsOver first p) (hsecond : IsOver second p) :
    IsOver (first * second) p := by
  rintro - ⟨front, hfront, back, hback, rfl⟩ c hc
  obtain hc | hc := List.mem_append.mp hc
  · exact hfirst front hfront c hc
  · exact hsecond back hback c hc

theorem IsOver.one_add (h : IsOver language p) : IsOver (1 + language) p := by
  rintro word (rfl | hword) c hc
  · simp at hc
  · exact h word hword c hc

theorem IsOver.kstar (h : IsOver language p) : IsOver (KStar.kstar language) p := by
  rintro - ⟨words, rfl, hwords⟩ c hc
  obtain ⟨word, hmem, hc⟩ := List.mem_flatten.mp hc
  exact h word (hwords word hmem) c hc

theorem StartsWith.mono (h : StartsWith language p) (hpq : ∀ c, p c → q c) :
    StartsWith language q := fun word hword c hc => hpq c (h word hword c hc)

theorem StartsWith.one_add (h : StartsWith language p) : StartsWith (1 + language) p := by
  rintro word (rfl | hword) c hc
  · simp at hc
  · exact h word hword c hc

theorem StartsWith.add (hfirst : StartsWith first p) (hsecond : StartsWith second p) :
    StartsWith (first + second) p := by
  rintro word (hword | hword) c hc
  · exact hfirst word hword c hc
  · exact hsecond word hword c hc

theorem startsWith_char_mul (h : ∀ c, p c → q c) : StartsWith (char p * language) q := by
  rintro - ⟨-, ⟨c, hc, rfl⟩, back, -, rfl⟩ d hd
  obtain rfl := Option.some.inj hd
  exact h c hc

theorem startsWith_char (h : ∀ c, p c → q c) : StartsWith (char p) q := by
  rintro - ⟨c, hc, rfl⟩ d hd
  obtain rfl := Option.some.inj hd
  exact h c hc

theorem StartsWith.mul (hfirst : StartsWith first p) (hsecond : StartsWith second p) :
    StartsWith (first * second) p := by
  rintro - ⟨front, hfront, back, hback, rfl⟩ c hc
  cases front with
  | nil => exact hsecond back hback c hc
  | cons d front => exact hfirst _ hfront c hc

/-! ### Words that do not compete for characters -/

/-- Words of the same length do not go on. -/
theorem HasLength.yields (h : HasLength first n) (second : Language Char) :
    Yields first second := by
  intro front back word hfront hall hne
  have hlength := h _ hall
  rw [List.length_append, h front hfront, Nat.add_eq_left, List.length_eq_zero_iff] at hlength
  exact absurd hlength hne

/-- Two texts of which one starts with the other one have their first character in
common. -/
theorem head_eq_of_compare {c d : Char} {front back : List Char}
    (h : c :: front <+: d :: back ∨ d :: back <+: c :: front) : c = d := by
  obtain hpre | hpre := h
  · exact (List.cons_prefix_cons.mp hpre).1
  · exact (List.cons_prefix_cons.mp hpre).1.symm

/-- Where words go on with other characters than those that behind them words start with,
the words behind them are empty there. -/
theorem IsOver.yields (h : IsOver first p) (hstart : StartsWith second q)
    (hpq : ∀ c, q c → p c = false) : Yields first second := by
  intro front back word _ hall hne hword hcompare
  cases word with
  | nil => exact ⟨hword, Nat.zero_le _⟩
  | cons c word =>
    cases back with
    | nil => exact absurd rfl hne
    | cons d back =>
      obtain rfl := head_eq_of_compare hcompare
      have hp : p c := h _ hall c (List.mem_append_right front List.mem_cons_self)
      rw [hpq c (hstart _ hword c rfl)] at hp
      simp at hp

end Words

/-! ### Longest words -/

/-- The longest word of a language that a text starts with has `length` characters; there
is no length if the text starts with no word. -/
def IsLongest (language : Language Char) (text : List Char) (length : Option Nat) : Prop :=
  match length with
  | none => ∀ word ∈ language, ¬ word <+: text
  | some n =>
    (∃ word ∈ language, word <+: text ∧ word.length = n) ∧
      ∀ word ∈ language, word <+: text → word.length ≤ n

namespace Matcher

open Words

/-- From the head of every text, a matcher takes the longest word of a language, and
nothing if there is no word. -/
def TakesLongest (m : Matcher) (language : Language Char) : Prop :=
  ∀ text, IsLongest language text (m text)

variable {a b : Matcher} {first second : Language Char} {p : Char → Bool}

theorem TakesLongest.of_none (h : TakesLongest a first) {text : List Char}
    (hnone : a text = none) : ∀ word ∈ first, ¬ word <+: text := by
  have hlongest := h text
  rwa [hnone] at hlongest

theorem TakesLongest.of_some (h : TakesLongest a first) {text : List Char} {n : Nat}
    (hsome : a text = some n) :
    (∃ word ∈ first, word <+: text ∧ word.length = n) ∧
      ∀ word ∈ first, word <+: text → word.length ≤ n := by
  have hlongest := h text
  rwa [hsome] at hlongest

theorem takesLongest_char (p : Char → Bool) : TakesLongest (char p) (Words.char p) := by
  intro text
  cases hn : char p text with
  | none =>
    rintro - ⟨c, hc, rfl⟩ ⟨tail, rfl⟩
    simp [char, hc] at hn
  | some n =>
    obtain ⟨c, tail, rfl, hc, rfl⟩ := char_eq_some.mp hn
    refine ⟨⟨[c], ⟨c, hc, rfl⟩, ⟨tail, rfl⟩, rfl⟩, fun word hword _ => ?_⟩
    rw [hasLength_char p word hword]

/-- Words over a class of characters are at most as long as the run of them. -/
theorem length_le_takeWhile {word text : List Char} (h : word <+: text)
    (hall : ∀ c ∈ word, p c) : word.length ≤ (text.takeWhile p).length := by
  obtain ⟨tail, rfl⟩ := h
  rw [List.takeWhile_append_of_pos hall, List.length_append]
  exact Nat.le_add_right _ _

theorem takesLongest_run (p : Char → Bool) (least most : Nat) :
    TakesLongest (run p least most) (Words.run p least most) := by
  intro text
  have hle : ∀ word ∈ Words.run p least most, word <+: text →
      word.length ≤ ((text.take most).takeWhile p).length := by
    rintro word ⟨-, hmost, hall⟩ hpre
    refine length_le_takeWhile ?_ hall
    rw [List.prefix_take_iff]
    exact ⟨hpre, hmost⟩
  cases hn : run p least most text with
  | none =>
    intro word hword hpre
    have hleast := hword.1
    have := hle word hword hpre
    have hshort : ¬ least ≤ ((text.take most).takeWhile p).length := by
      intro h
      rw [run_eq_some.mpr ⟨rfl, h⟩] at hn
      simp at hn
    omega
  | some n =>
    obtain ⟨rfl, hleast⟩ := run_eq_some.mp hn
    have hpre := List.takeWhile_prefix (l := text.take most) p
    refine ⟨⟨_, ⟨hleast, ?_, fun c hc => List.mem_takeWhile_imp hc⟩,
      hpre.trans (List.take_prefix most text), rfl⟩, hle⟩
    exact hpre.length_le.trans (List.length_take_le most text)

theorem takesLongest_runs (p : Char → Bool) : TakesLongest (runs p) (Words.runs p) := by
  intro text
  have hle : ∀ word ∈ Words.runs p, word <+: text →
      word.length ≤ (text.takeWhile p).length :=
    fun word hword hpre => length_le_takeWhile hpre hword.2
  cases hn : runs p text with
  | none =>
    intro word hword hpre
    have hzero : (text.takeWhile p).length = 0 := by
      by_contra hne
      rw [runs_eq_some.mpr ⟨rfl, hne⟩] at hn
      simp at hn
    have := hle word hword hpre
    exact hword.1 (List.length_eq_zero_iff.mp (by omega))
  | some n =>
    obtain ⟨rfl, hne⟩ := runs_eq_some.mp hn
    exact ⟨⟨_, ⟨fun h => hne (by rw [h]; rfl), fun c hc => List.mem_takeWhile_imp hc⟩,
      List.takeWhile_prefix p, rfl⟩, hle⟩

theorem followedBy_of_none {text : List Char} (h : a text = none) :
    a.followedBy b text = none := by
  simp only [Matcher.followedBy, h, Option.bind_eq_bind, Option.bind_none]

theorem followedBy_of_some {text : List Char} {m : Nat} (h : a text = some m) :
    a.followedBy b text = (b (text.drop m)).map (m + ·) := by
  simp only [Matcher.followedBy, h, Option.bind_eq_bind, Option.bind_some, Option.pure_def,
    Option.map_eq_bind]
  rfl

/-- One matcher behind another one takes the longest word, if the first one never takes
what only the second one could use. -/
theorem TakesLongest.followedBy (ha : TakesLongest a first) (hb : TakesLongest b second)
    (hyields : Yields first second) : TakesLongest (a.followedBy b) (first * second) := by
  intro text
  cases hm : a text with
  | none =>
    rw [followedBy_of_none hm]
    rintro - ⟨front, hfront, back, -, rfl⟩ hpre
    exact ha.of_none hm front hfront ((List.prefix_append front back).trans hpre)
  | some m =>
    obtain ⟨⟨long, hlong, hpre, hlength⟩, hmost⟩ := ha.of_some hm
    obtain ⟨rest, rfl⟩ := hpre
    have hdrop : (long ++ rest).drop m = rest := by rw [← hlength, List.drop_left]
    -- A word of the product that is not split behind `long` is split within it.
    have hsplit : ∀ front ∈ first, ∀ back ∈ second, front ++ back <+: long ++ rest →
        front = long ∧ back <+: rest ∨ [] ∈ second ∧ (front ++ back).length ≤ m := by
      intro front hfront back hback hpre
      have hfrontpre := (List.prefix_append front back).trans hpre
      have hle : front.length ≤ long.length := by
        rw [hlength]
        exact hmost front hfront hfrontpre
      obtain ⟨tail, rfl⟩ := List.prefix_of_prefix_length_le hfrontpre
        (List.prefix_append long rest) hle
      rw [List.append_assoc, List.prefix_append_right_inj] at hpre
      by_cases htail : tail = []
      · subst htail
        exact .inl ⟨(List.append_nil front).symm, hpre⟩
      · have hcompare := List.prefix_or_prefix_of_prefix hpre (List.prefix_append tail rest)
        obtain ⟨hnil, hshort⟩ := hyields hfront hlong htail hback hcompare
        refine .inr ⟨hnil, ?_⟩
        rw [List.length_append] at hlength ⊢
        omega
    rw [followedBy_of_some hm, hdrop]
    cases hn : b rest with
    | none =>
      rintro - ⟨front, hfront, back, hback, rfl⟩ hpre
      obtain ⟨-, hback'⟩ | ⟨hnil, -⟩ := hsplit front hfront back hback hpre
      · exact hb.of_none hn back hback hback'
      · exact hb.of_none hn [] hnil List.nil_prefix
    | some n =>
      obtain ⟨⟨behind, hbehind, hbehindpre, rfl⟩, hmost'⟩ := hb.of_some hn
      refine ⟨⟨long ++ behind, ⟨long, hlong, behind, hbehind, rfl⟩, ?_, ?_⟩, ?_⟩
      · rwa [List.prefix_append_right_inj]
      · rw [List.length_append, hlength]
      · rintro - ⟨front, hfront, back, hback, rfl⟩ hpre
        obtain ⟨rfl, hbackpre⟩ | ⟨-, hle⟩ := hsplit front hfront back hback hpre
        · have := hmost' back hback hbackpre
          simp only [List.length_append]
          omega
        · exact Nat.le_add_right_of_le hle

/-- Behind one character no character is lost. -/
theorem TakesLongest.char_followedBy (p : Char → Bool) (hb : TakesLongest b second) :
    TakesLongest ((char p).followedBy b) (Words.char p * second) :=
  (takesLongest_char p).followedBy hb ((hasLength_char p).yields second)

/-- Behind a fixed number of digits no character is lost. -/
theorem TakesLongest.digits_followedBy (n : Nat) (hb : TakesLongest b second) :
    TakesLongest ((digits n).followedBy b) (Words.run Char.isDigit n n * second) :=
  (takesLongest_run Char.isDigit n n).followedBy hb ((hasLength_run Char.isDigit n).yields second)

theorem TakesLongest.optional (h : TakesLongest a first) :
    TakesLongest a.optional (1 + first) := by
  intro text
  rw [optional_eq]
  cases hn : a text with
  | none =>
    refine ⟨⟨[], .inl rfl, List.nil_prefix, rfl⟩, ?_⟩
    rintro word (rfl | hword) hpre
    · exact Nat.le_refl 0
    · exact absurd hpre (h.of_none hn word hword)
  | some n =>
    obtain ⟨⟨word, hword, hpre, rfl⟩, hmost⟩ := h.of_some hn
    refine ⟨⟨word, .inr hword, hpre, rfl⟩, ?_⟩
    rintro other (rfl | hother) hpre'
    · exact Nat.zero_le _
    · exact hmost other hother hpre'

/-- The first matcher that fits takes the longest word, if the words of the other one are
no longer in its place. -/
theorem TakesLongest.orElse (ha : TakesLongest a first) (hb : TakesLongest b second)
    (h : ∀ word ∈ first, ∀ other ∈ second, word <+: other → other.length ≤ word.length) :
    TakesLongest (a.orElse b) (first + second) := by
  intro text
  cases hn : a text with
  | some n =>
    obtain ⟨⟨word, hword, hpre, rfl⟩, hmost⟩ := ha.of_some hn
    rw [orElse_eq_some.mpr (.inl hn)]
    refine ⟨⟨word, .inl hword, hpre, rfl⟩, ?_⟩
    rintro other (hother | hother) hpre'
    · exact hmost other hother hpre'
    · obtain hcompare | hcompare := List.prefix_or_prefix_of_prefix hpre' hpre
      · exact hcompare.length_le
      · exact h word hword other hother hcompare
  | none =>
    have heq : a.orElse b text = b text := by rw [Matcher.orElse, hn, Option.none_or]
    rw [heq]
    cases hk : b text with
    | none =>
      rintro other (hother | hother)
      · exact ha.of_none hn other hother
      · exact hb.of_none hk other hother
    | some k =>
      obtain ⟨⟨word, hword, hpre, rfl⟩, hmost⟩ := hb.of_some hk
      refine ⟨⟨word, .inr hword, hpre, rfl⟩, ?_⟩
      rintro other (hother | hother) hpre'
      · exact absurd hpre' (ha.of_none hn other hother)
      · exact hmost other hother hpre'

theorem TakesLongest.longer (ha : TakesLongest a first) (hb : TakesLongest b second) :
    TakesLongest (a.longer b) (first + second) := by
  intro text
  cases hn : a.longer b text with
  | some n =>
    have hmost : ∀ {m : Matcher} {language : Language Char}, TakesLongest m language →
        (∀ k ∈ m text, k ≤ n) → ∀ word ∈ language, word <+: text → word.length ≤ n := by
      intro m language hm hle word hword hpre
      cases hk : m text with
      | none => exact absurd hpre (hm.of_none hk word hword)
      | some k => exact ((hm.of_some hk).2 word hword hpre).trans (hle k hk)
    obtain ⟨htaken, hle⟩ | ⟨htaken, hle⟩ := longer_eq_some.mp hn
    · obtain ⟨⟨word, hword, hpre, rfl⟩, hall⟩ := ha.of_some htaken
      refine ⟨⟨word, .inl hword, hpre, rfl⟩, ?_⟩
      rintro other (hother | hother) hpre'
      · exact hall other hother hpre'
      · exact hmost hb hle other hother hpre'
    · obtain ⟨⟨word, hword, hpre, rfl⟩, hall⟩ := hb.of_some htaken
      refine ⟨⟨word, .inr hword, hpre, rfl⟩, ?_⟩
      rintro other (hother | hother) hpre'
      · exact hmost ha hle other hother hpre'
      · exact hall other hother hpre'
  | none =>
    have hnone : a text = none ∧ b text = none := by
      simp only [Matcher.longer] at hn
      split at hn
      · simp at hn
      · simp at hn
      · next h => exact ⟨h, hn⟩
    rintro word (hword | hword)
    · exact ha.of_none hnone.1 word hword
    · exact hb.of_none hnone.2 word hword

/-! ### Lists of words -/

theorem takesLongest_word (letters : List Char) :
    TakesLongest (word letters) (Words.list [letters]) := by
  intro text
  cases hn : word letters text with
  | none =>
    intro other hother hpre
    obtain rfl := List.mem_singleton.mp hother
    rw [word_eq_some.mpr ⟨hpre, rfl⟩] at hn
    simp at hn
  | some n =>
    obtain ⟨hpre, rfl⟩ := word_eq_some.mp hn
    refine ⟨⟨letters, List.mem_singleton_self letters, hpre, rfl⟩, fun other hother _ => ?_⟩
    rw [List.mem_singleton.mp hother]

theorem takesLongest_none : TakesLongest (fun _ => none) (Words.list []) :=
  fun _ _ hword => absurd hword List.not_mem_nil

theorem list_cons (letters : List Char) (words : List (List Char)) :
    Words.list (letters :: words) = Words.list [letters] + Words.list words := by
  ext word
  rw [Language.mem_add]
  change word ∈ letters :: words ↔ word ∈ [letters] ∨ word ∈ words
  rw [List.mem_cons, List.mem_singleton]

/-- The first word that fits is the longest one, if no word goes on to a later one. -/
theorem takesLongest_firstWord {words : List (List Char)}
    (h : words.Pairwise fun word other => word <+: other → other.length ≤ word.length) :
    TakesLongest (firstWord words) (Words.list words) := by
  induction words with
  | nil => exact takesLongest_none
  | cons letters words ih =>
    rw [List.pairwise_cons] at h
    rw [list_cons]
    refine (takesLongest_word letters).orElse (ih h.2) fun word hword other hother => ?_
    obtain rfl := List.mem_singleton.mp hword
    exact h.1 other hother

/-- The longest of some words, each tried for itself. -/
theorem takesLongest_foldr_word (words : List (List Char)) :
    TakesLongest (words.foldr (fun letters best => (word letters).longer best) fun _ => none)
      (Words.list words) := by
  induction words with
  | nil => exact takesLongest_none
  | cons letters words ih =>
    rw [list_cons, List.foldr_cons]
    exact (takesLongest_word letters).longer ih

end Matcher

end PipelineLang
