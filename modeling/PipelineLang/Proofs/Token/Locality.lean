import PipelineLang.Proofs.Address.Words
import PipelineLang.Proofs.Token.Format

/-!
# How far a token looks

A token of a format string is read again, in a text that ends where its replacement ends.
What is behind a token that ends with a quote does not matter to it, and what is behind a
closing brace or a line end does not matter to any token before them. A space or a comment ends a
token too, but a path before a space may still be a pattern.

## Main definitions

- `Closed`, `Breaks` — texts that no token goes on with
- `Spares` — a text that the token before it does not go on with
- `Before.Alike` — nothing that a token sees of what is before it differs

## Main results

- `Lexeme.ofWord_append`, `Lexeme.ofPunctuation?_append` and their like — what is recognised at
  the head of a text is recognised there with such a text behind it
-/

namespace PipelineLang

variable {front back back' : List Char}

/-- A run that ends before the end of a text ends there whatever is behind the text. -/
theorem takeWhile_within {p : Char → Bool} (back' : List Char)
    (h : ((front ++ back).takeWhile p).length < front.length) :
    (front ++ back').takeWhile p = (front ++ back).takeWhile p := by
  have hfront := Matcher.takeWhile_cut (Nat.le_of_lt h)
  rw [← hfront] at h ⊢
  rw [List.takeWhile_append, if_neg (Nat.ne_of_lt h)]

theorem isPrefixOf_append_of_le {letters : List Char} (h : letters.length ≤ front.length) :
    letters.isPrefixOf (front ++ back) = letters.isPrefixOf front := by
  rw [Bool.eq_iff_iff, List.isPrefixOf_iff_prefix, List.isPrefixOf_iff_prefix]
  refine ⟨fun hpre => List.prefix_of_prefix_length_le hpre (List.prefix_append _ _) h, ?_⟩
  exact fun hpre => hpre.trans (List.prefix_append _ _)

/-- An escape that ends within a text is one whatever is behind the text. -/
theorem Escape.length?_within {inFormat : Bool} {n : Nat}
    (h : length? inFormat (front ++ back) = some n) (hne : front ≠ []) (hle : n ≤ front.length) :
    length? inFormat (front ++ back') = some n := by
  obtain ⟨c, front, rfl⟩ := List.exists_cons_of_ne_nil hne
  rw [List.cons_append] at h ⊢
  by_cases hx : c = 'x'
  · subst hx
    match front, back with
    | a :: b :: front, _ => simpa [length?] using h
    | [a], [] => simp [length?, simple] at h
    | [a], b :: back =>
      simp [length?] at h
      simp at hle
      omega
    | [], [] => simp [length?, simple] at h
    | [], [a] => simp [length?, simple] at h
    | [], a :: b :: back =>
      simp [length?] at h
      simp at hle
      omega
  by_cases hu : c = 'u'
  · subst hu
    match front, back with
    | [], [] => simp [length?, simple] at h
    | [], a :: back =>
      by_cases ha : a = '\x7b'
      · subst ha
        simp [length?] at h
        simp at hle
        omega
      · simp [length?, simple, ha] at h
    | a :: front, back =>
      by_cases ha : a = '\x7b'
      · subst ha
        simp only [List.cons_append, length?, Option.ite_none_right_eq_some, Option.some.injEq]
          at h ⊢
        obtain ⟨hdigits, rfl⟩ := h
        have hlt : ((front ++ back).takeWhile Ascii.isHexDigit).length < front.length := by
          simp at hle
          omega
        rw [takeWhile_within back' hlt]
        refine ⟨?_, rfl⟩
        rw [List.drop_append_of_le_length (Nat.le_of_lt hlt)] at hdigits ⊢
        have hne : front.drop ((front ++ back).takeWhile Ascii.isHexDigit).length ≠ [] := by
          rw [ne_eq, List.drop_eq_nil_iff]
          omega
        obtain ⟨d, rest, hrest⟩ := List.exists_cons_of_ne_nil hne
        rw [hrest] at hdigits ⊢
        exact hdigits
      · simp [length?, simple, ha] at h
  have hother : ∀ tail, length? inFormat (c :: tail) =
      if simple.contains c || (inFormat && (c == '\x7b' || c == '\x7d')) then some 1 else none := by
    intro tail
    unfold length?
    split <;> simp_all
  rw [hother] at h ⊢
  exact h

namespace Lexeme

variable {before before' : Before} {lexeme : Lexeme}

theorem exists_drop {text : List Char} {position : Nat} (h : position < text.length) :
    ∃ c rest, text.drop position = c :: rest ∧ rest.length = text.length - position - 1 :=
  ⟨_, _, List.drop_eq_getElem_cons h, by rw [List.length_drop]; omega⟩

theorem ofQuoted_eq {lead : Nat} {quote : Char} {text body : List Char}
    (h : text.drop lead = quote :: body) : ofQuoted before lead text =
      walk (ofQuoted.stop before quote) (ofQuoted.finish before) 0 (lead + 1) ()
        (text.drop (lead + 1)) := by
  rw [ofQuoted, ← List.drop_drop, h]
  rfl

theorem stopAlike_ofQuoted (quote : Char) :
    StopAlike (ofQuoted.stop before quote) (ofQuoted.stop before' quote) (fun _ _ => True)
      Lexeme.length 1 front back back' where
  margin_pos := Nat.one_pos
  margin_le position _ ahead a h := by
    unfold ofQuoted.stop at h
    repeat' split at h
    all_goals simp only [ofQuoted.finish, Stride.done.injEq, reduceCtorEq, Except.ok.injEq] at h
    subst h
    exact Nat.le_refl _
  done position _ _ a _ hle hlength h := by
    obtain ⟨c, rest, hdrop, -⟩ := exists_drop (show position < front.length by omega)
    rw [hdrop, List.cons_append] at h ⊢
    simp only [ofQuoted.stop] at h ⊢
    repeat' split at h
    all_goals simp_all
  go position extra _ _ _ _ hle h := by
    obtain ⟨c, rest, hdrop, hrest⟩ := exists_drop (show position < front.length by omega)
    rw [hdrop, List.cons_append] at h ⊢
    simp only [ofQuoted.stop] at h ⊢
    refine ⟨(), ?_, trivial⟩
    split at h
    · next hc =>
      rw [if_pos hc]
      split at h
      · next n hn =>
        obtain ⟨rfl, -⟩ := Stride.go.inj h
        have hne : rest ≠ [] := List.ne_nil_of_length_pos (by omega)
        rw [Escape.length?_within hn hne (by omega)]
      · simp at h
    · next hc =>
      rw [if_neg hc]
      split at h
      · simp at h
      · next hquote =>
        rw [if_neg hquote]
        exact h

theorem ofQuoted_within {lead : Nat} (h : ofQuoted before lead (front ++ back) = .ok lexeme)
    (hlength : lexeme.length ≤ front.length) :
    ofQuoted before' lead (front ++ back') = .ok lexeme := by
  cases hdrop : (front ++ back).drop lead with
  | nil => simp [ofQuoted, hdrop] at h
  | cons quote body =>
    rw [ofQuoted_eq hdrop] at h
    have hwalk : lead + 1 + 1 ≤ front.length ∧
        walk (ofQuoted.stop before' quote) (ofQuoted.finish before') 0 (lead + 1) ()
          ((front ++ back').drop (lead + 1)) = .ok lexeme :=
      (stopAlike_ofQuoted quote).walk (by simp [ofQuoted.finish]) h hlength trivial
    have hdrop' : (front ++ back').drop lead = quote :: (front.drop (lead + 1) ++ back') := by
      rw [List.drop_append_of_le_length (by omega)] at hdrop ⊢
      rw [List.drop_eq_getElem_cons (by omega), List.cons_append] at hdrop ⊢
      rw [(List.cons.inj hdrop).1]
    rw [ofQuoted_eq hdrop', hwalk.2]

/-! ### Raw strings and comments -/

theorem stopAlike_ofRaw (fences : Nat) :
    StopAlike (ofRaw.stop before fences) (ofRaw.stop before' fences) (fun _ _ => True)
      Lexeme.length (1 + fences) front back back' where
  margin_pos := by omega
  margin_le position _ ahead a h := by
    unfold ofRaw.stop at h
    repeat' split at h
    all_goals simp only [ofRaw.finish, Stride.done.injEq, reduceCtorEq, Except.ok.injEq] at h
    subst h
    exact Nat.le_of_eq (Nat.add_assoc _ _ _).symm
  done position _ _ a _ hle hlength h := by
    obtain ⟨c, rest, hdrop, hrest⟩ := exists_drop (show position < front.length by omega)
    rw [hdrop, List.cons_append] at h ⊢
    simp only [ofRaw.stop] at h ⊢
    rwa [isPrefixOf_append_of_le (by rw [List.length_replicate]; omega)] at h ⊢
  go position extra _ _ _ _ hle h := by
    obtain ⟨c, rest, hdrop, hrest⟩ := exists_drop (show position < front.length by omega)
    rw [hdrop, List.cons_append] at h ⊢
    simp only [ofRaw.stop] at h ⊢
    rw [isPrefixOf_append_of_le (by rw [List.length_replicate]; omega)] at h ⊢
    exact ⟨(), h, trivial⟩

theorem fenceCount_within {text : List Char} (back' : List Char)
    (h : fenceCount (text ++ back) < text.length) :
    fenceCount (text ++ back') = fenceCount (text ++ back) := by
  rw [fenceCount, fenceCount, takeWhile_within back' h]

theorem ofRaw_within {lead : Nat} (h : ofRaw before lead (front ++ back) = .ok lexeme)
    (hlength : lexeme.length ≤ front.length) :
    ofRaw before' lead (front ++ back') = .ok lexeme := by
  rw [ofRaw] at h ⊢
  generalize hfences : fenceCount ((front ++ back).drop lead) = fences at h
  split at h
  · simp at h
  · next hmost =>
    have hwalk : lead + fences + 1 + (1 + fences) ≤ front.length ∧
        walk (ofRaw.stop before' fences) (ofRaw.finish before' fences) 0 (lead + fences + 1) ()
          ((front ++ back').drop (lead + fences + 1)) = .ok lexeme :=
      (stopAlike_ofRaw fences).walk (by simp [ofRaw.finish]) h hlength trivial
    have hfences' : fenceCount ((front ++ back').drop lead) = fences := by
      rw [List.drop_append_of_le_length (by omega)] at hfences ⊢
      rw [fenceCount_within back' (by rw [hfences, List.length_drop]; omega), hfences]
    rw [hfences', if_neg hmost, hwalk.2]

theorem stopAlike_ofBlockComment :
    StopAlike (ofBlockComment.stop) (ofBlockComment.stop) (fun _ _ => True)
      Lexeme.length 2 front back back' where
  margin_pos := Nat.two_pos
  margin_le position _ ahead a h := by
    unfold ofBlockComment.stop at h
    split at h
    all_goals simp only [Stride.done.injEq, reduceCtorEq, Except.ok.injEq] at h
    subst h
    exact Nat.le_refl _
  done position _ _ a _ hle hlength h := by
    simp only [ofBlockComment.stop] at h ⊢
    rwa [isPrefixOf_append_of_le (by simp; omega)] at h ⊢
  go position extra _ _ _ _ hle h := by
    simp only [ofBlockComment.stop] at h ⊢
    rw [isPrefixOf_append_of_le (by simp; omega)] at h ⊢
    exact ⟨(), h, trivial⟩

theorem ofBlockComment_within (h : ofBlockComment before (front ++ back) = .ok lexeme)
    (hlength : lexeme.length ≤ front.length) :
    ofBlockComment before' (front ++ back') = .ok lexeme := by
  have hwalk : 2 + 2 ≤ front.length ∧
      walk ofBlockComment.stop (ofBlockComment.finish before') 0 2 () ((front ++ back').drop 2) =
        .ok lexeme :=
    stopAlike_ofBlockComment.walk (by simp [ofBlockComment.finish]) h hlength trivial
  exact hwalk.2

/-- A line comment that does not go on with a character that ends no line ends before it. -/
theorem ofLineComment_within {c : Char} {tail : List Char} (hc : c ≠ '\n' ∧ c ≠ '\r')
    (h : (ofLineComment (front ++ c :: tail)).length ≤ front.length) :
    ofLineComment (front ++ back') = ofLineComment (front ++ c :: tail) := by
  simp only [ofLineComment, mk.injEq, true_and] at h ⊢
  generalize hp : (fun c : Char => c != '\n' && c != '\r') = p at h ⊢
  -- Were the comment as long as the text before the character, it would go on with it.
  have hlt : ((front ++ c :: tail).takeWhile p).length < front.length := by
    refine Nat.lt_of_le_of_ne h fun heq => ?_
    have hfront := Matcher.takeWhile_cut h
    rw [← hfront] at heq
    have hall : ∀ d ∈ front, p d := by
      rw [← List.takeWhile_eq_self_iff]
      exact (List.takeWhile_prefix p).eq_of_length heq
    have hline : p c := by
      rw [← hp]
      simpa using hc
    rw [List.takeWhile_append_of_pos hall, List.takeWhile_cons_of_pos hline, List.length_append,
      List.length_cons] at h
    omega
  rw [takeWhile_within back' hlt]

end Lexeme

/-! ### What may be behind a token in a replacement -/

/-- A text that may be behind the tokens of a replacement: nothing, or the closing brace. -/
def Closed (rest : List Char) : Prop := ∀ c ∈ rest.head?, c = '\x7d'

theorem closed_nil : Closed [] := nofun

theorem closed_cons (tail : List Char) : Closed ('\x7d' :: tail) := by
  rintro _ ⟨⟩
  rfl

/-- A text that no token goes on with: nothing, or a closing brace or a line end first. -/
def Breaks (rest : List Char) : Prop := ∀ c ∈ rest.head?, c ∈ ['\x7d', '\n']

theorem forall_breaking {p : Char → Prop} :
    (∀ c ∈ ['\x7d', '\n'], p c) ↔ p '\x7d' ∧ p '\n' := by simp

theorem Closed.breaks {rest : List Char} (h : Closed rest) : Breaks rest := by
  intro c hc
  rw [h c hc]
  decide

/-- The characters that the texts start with that no token goes on with. -/
def breakers : List Char := ['\x7d', '\n', ' ', '/']

/-- Whether a text is a path of two words that would be an address in other places, with nothing
but blanks behind it. -/
def IsPathAddress (text : List Char) : Prop :=
  ∃ first second blanks, text = first ++ ':' :: ':' :: (second ++ blanks) ∧ IsWord first ∧
    IsWord second ∧ Address.IsPair first second ∧ ∀ c ∈ blanks, c = ' ' ∨ c = '\t'

/-- Whether a text goes on as it may behind a pattern: with an arrow or a comma, blanks apart. -/
def Lexeme.endsPattern (rest : List Char) : Bool :=
  let next := rest.dropWhile fun c => c == ' ' || c == '\t'
  ['=', '>'].isPrefixOf next || [','].isPrefixOf next

/-- The token at the head of `text` does not go on with `rest`. Where `rest` starts with a
slash, it is a comment and no length of a network, and a path that starts a statement is no
pattern. -/
structure Spares (before : Before) (text rest : List Char) : Prop where
  mem : ∀ c ∈ rest.head?, c ∈ breakers
  digit : ∀ tail, rest = '/' :: tail → ∀ d ∈ tail.head?, d.isDigit = false
  pattern : before.previous.all Lexeme.statementOpeners.contains → IsPathAddress text →
    Lexeme.endsPattern rest = false

theorem Breaks.head_ne {rest : List Char} (h : Breaks rest) : rest.head? ≠ some '/' :=
  fun hhead => absurd (h '/' hhead) (by decide)

theorem Breaks.spares {before : Before} {rest : List Char} (h : Breaks rest) (text : List Char) :
    Spares before text rest where
  mem c hc := by
    have hbreakers : ∀ c ∈ ['\x7d', '\n'], c ∈ breakers := forall_breaking.mpr (by decide)
    exact hbreakers c (h c hc)
  digit tail heq := absurd (by rw [heq]; rfl) h.head_ne
  pattern _ _ := by
    cases rest with
    | nil => rfl
    | cons c rest =>
      have hnone : ∀ c ∈ ['\x7d', '\n'], ∀ rest, Lexeme.endsPattern (c :: rest) = false :=
        forall_breaking.mpr ⟨fun _ => rfl, fun _ => rfl⟩
      exact hnone c (h c rfl) rest

namespace Spares

variable {before : Before} {text rest : List Char}

theorem head (h : Spares before text rest) {p : Char → Bool} (hp : breakers.all p = true) :
    ∀ c ∈ rest.head?, p c = true := fun c hc => List.all_eq_true.mp hp c (h.mem c hc)

theorem stops (h : Spares before text rest) : Stops rest where
  mem c hc := by
    simpa using h.head (p := ('/' :: closers).contains) (by decide) c hc
  digit c tail hc heq := by
    obtain rfl | rfl := hc
    · exact absurd (h.mem '.' (by rw [heq]; rfl)) (by decide)
    · exact h.digit tail heq

theorem head_append (h : Spares before text rest) (front : List Char) {c : Char}
    (hc : c ∉ breakers) : ((front ++ rest).head? == some c) = (front.head? == some c) := by
  cases front with
  | cons d front => rfl
  | nil =>
    cases rest with
    | nil => rfl
    | cons d rest =>
      have hd : d ≠ c := fun hdc => hc (hdc ▸ h.mem d rfl)
      simpa using hd

theorem isPrefixOf_append (h : Spares before text rest) (front : List Char) {letters : List Char}
    (hletters : breakers.all (fun c => !letters.contains c) = true) :
    letters.isPrefixOf (front ++ rest) = letters.isPrefixOf front := by
  have hword : Matcher.word letters (front ++ rest) = Matcher.word letters front :=
    Matcher.deaf_word (fun c hc => by simpa using h.head hletters c hc) front
  rw [Bool.eq_iff_iff]
  simp only [Matcher.word] at hword
  split at hword <;> split at hword <;> simp_all

theorem any_head_append (h : Spares before text rest) (front : List Char) :
    (front ++ rest).head?.any Ascii.isWordChar = front.head?.any Ascii.isWordChar := by
  cases front with
  | cons c front => rfl
  | nil =>
    cases rest with
    | nil => rfl
    | cons c rest => simpa using h.head (p := fun c => !Ascii.isWordChar c) (by decide) c rfl

/-- What is behind some characters tells of a pattern if these do, or if they are blanks and
what is behind the text does. -/
theorem endsPattern_append (h : Spares before text rest) (front : List Char)
    (hpattern : (∀ c ∈ front, c = ' ' ∨ c = '\t') → Lexeme.endsPattern rest = false) :
    Lexeme.endsPattern (front ++ rest) = Lexeme.endsPattern front := by
  simp only [Lexeme.endsPattern] at hpattern ⊢
  generalize hp : (fun c : Char => c == ' ' || c == '\t') = p at hpattern ⊢
  rw [List.dropWhile_append]
  split
  · next hnil =>
    have hnil' := List.isEmpty_iff.mp hnil
    have hblanks : ∀ c ∈ front, c = ' ' ∨ c = '\t' := by
      intro c hc
      have hall := List.dropWhile_eq_nil_iff.mp hnil' c hc
      rw [← hp] at hall
      simpa using hall
    rw [hpattern hblanks, hnil']
    rfl
  · rw [h.isPrefixOf_append _ (by decide), h.isPrefixOf_append _ (by decide)]

end Spares

/-- Nothing that a token sees of what is before it differs. -/
structure Before.Alike (before before' : Before) : Prop where
  names : (before.previous == some .identifier) = (before'.previous == some .identifier)
  opens : before.previous.all Lexeme.statementOpeners.contains =
    before'.previous.all Lexeme.statementOpeners.contains
  last : before.last.any Ascii.isWordChar = before'.last.any Ascii.isWordChar

theorem Before.alike_self (before : Before) : before.Alike before := ⟨rfl, rfl, rfl⟩

namespace Lexeme

variable {text rest : List Char} {before before' : Before}

theorem wordLength_append (h : Stops rest) :
    Ascii.wordLength (text ++ rest) = Ascii.wordLength text := by
  rw [Ascii.wordLength, Ascii.wordLength, Matcher.takeWhile_append_of_head (h.head (by decide))]

theorem wordAhead_append (h : Stops rest) : wordAhead (text ++ rest) = wordAhead text := by
  cases text with
  | cons c text =>
    have hword : Ascii.wordLength (c :: (text ++ rest)) = Ascii.wordLength (c :: text) := by
      rw [← List.cons_append, wordLength_append h]
    simp only [List.cons_append, wordAhead, hword]
  | nil =>
    cases rest with
    | nil => rfl
    | cons c rest =>
      have hstart : Ascii.isWordStart c = false := h.head (p := Ascii.isWordStart) (by decide) c rfl
      simp [wordAhead, hstart]

theorem opensRaw_append (h : Stops rest) : opensRaw (text ++ rest) = opensRaw text := by
  have hcount : fenceCount (text ++ rest) = fenceCount text := by
    rw [fenceCount, fenceCount, Matcher.takeWhile_append_of_head (h.head (by decide))]
  have hle : fenceCount text ≤ text.length := Matcher.length_takeWhile_le _ text
  rw [opensRaw, opensRaw, hcount, List.drop_append_of_le_length hle]
  cases text.drop (fenceCount text) with
  | cons c behind => rfl
  | nil =>
    cases rest with
    | nil => rfl
    | cons c rest =>
      have hquote : (c == '\x22') = false := h.head (p := (· == '\x22')) (by decide) c rfl
      simpa using hquote

/-- A literal is the same before whatever may stand right behind an expression. -/
theorem literal?_append (h : Stops rest) : literal? (text ++ rest) = literal? text := by
  simp only [literal?, List.foldl_cons, List.foldl_nil, Time.deaf_matcher h text,
    Address.deaf_subnetMatcher h text, Address.deaf_matcher (Address.ends_of_stops h) text,
    Number.deaf_matcher h text, Duration.deaf_matcher h text]

theorem ofDigit_append (h : Stops rest) : ofDigit (text ++ rest) = ofDigit text := by
  rw [ofDigit, ofDigit, literal?_append h]

theorem ofColon_append (halike : before.Alike before') (h : Stops rest) :
    ofColon before (':' :: (text ++ rest)) = ofColon before' (':' :: text) := by
  have hsubnet : Address.subnetMatcher (':' :: (text ++ rest)) =
      Address.subnetMatcher (':' :: text) := Address.deaf_subnetMatcher h (':' :: text)
  have hgroups : Address.groupsMatcher (':' :: (text ++ rest)) =
      Address.groupsMatcher (':' :: text) :=
    Address.deaf_groupsMatcher (Address.ends_of_stops h) (':' :: text)
  simp only [ofColon, continuesPath, hsubnet, hgroups, halike.names, halike.last,
    List.drop_succ_cons, List.drop_zero]
  cases text with
  | nil =>
    cases rest with
    | nil => rfl
    | cons c rest =>
      have hcolon : c ≠ ':' := by
        have := h.head (p := (· == ':')) (by decide) c rfl
        simpa using this
      simp [hcolon]
  | cons c text =>
    simp only [List.cons_append, List.head?_cons, List.drop_succ_cons, List.drop_zero,
      wordAhead_append h]

theorem namesOperator_eq (before : Before) (rest : List Char) : namesOperator before rest =
    (rest.head? == some '(' ||
      (before.previous.all statementOpeners.contains && !endsPattern rest)) := rfl

theorem namesOperator_append (halike : before.Alike before') (h : Spares before text rest)
    (front : List Char)
    (hpattern : before.previous.all statementOpeners.contains →
      (∀ c ∈ front, c = ' ' ∨ c = '\t') → endsPattern rest = false) :
    namesOperator before (front ++ rest) = namesOperator before' front := by
  rw [namesOperator_eq, namesOperator_eq, h.head_append front (by decide), ← halike.opens]
  cases hopens : before.previous.all statementOpeners.contains with
  | false => rfl
  | true => rw [h.endsPattern_append front (hpattern hopens)]

theorem addressOr_append (h : Stops rest) (ip : Nat) :
    addressOr (text ++ rest) ip = addressOr text ip := by
  rw [addressOr, addressOr, Address.deaf_subnetMatcher h]

theorem length_addressOr_le {ip : Nat} (h : ip ≤ text.length) :
    (addressOr text ip).length ≤ text.length := by
  rw [addressOr]
  split
  · next subnet hsubnet =>
    split
    · exact Address.bounded_subnetMatcher hsubnet
    · exact h
  · exact h

theorem length_addressOr_of_ip {ip : Nat} (h : (addressOr text ip).kind = .ip) :
    (addressOr text ip).length = ip := by
  rw [addressOr] at h ⊢
  split
  · split
    · next hsubnet hlt =>
      rw [hsubnet] at h
      simp [hlt] at h
    · rfl
  · rfl

theorem address?_append (halike : before.Alike before') (h : Spares before text rest) :
    address? before (text ++ rest) = address? before' text := by
  refine Option.ext fun lexeme => ?_
  have hends := Address.ends_of_stops h.stops
  rw [address?_eq_some, address?_eq_some, Address.deaf_groupsMatcher hends]
  refine exists_congr fun ip => and_congr_right fun hip => ?_
  have hle : ip ≤ text.length := Address.bounded_groupsMatcher hip
  rw [addressOr_append h.stops, List.take_append_of_le_length hle]
  by_cases hlexeme : addressOr text ip = lexeme
  swap
  · simp only [hlexeme, and_false]
  have hlength : lexeme.length ≤ text.length := hlexeme ▸ length_addressOr_le hle
  rw [List.drop_append_of_le_length hlength, h.any_head_append]
  refine and_congr_right fun hmarks => and_congr_right fun hbehind => and_congr_left fun _ =>
    not_congr <| and_congr_right fun hkind => and_congr_right fun hshape => ?_
  -- A path with nothing but blanks behind it is what the text ends with.
  have hdrop : lexeme.length = ip := by
    rw [← hlexeme] at hkind ⊢
    exact length_addressOr_of_ip hkind
  rw [hdrop, namesOperator_append halike h _ fun hopens hblanks => h.pattern hopens ?_]
  have hend : EndsWord (text.drop ip) := by
    intro c hc
    rw [hdrop, Option.mem_def.mp hc] at hbehind
    exact hbehind
  obtain ⟨first, second, htake, hfirst, hsecond, hgroup, hgroup'⟩ :=
    Address.exists_words_of_isPathShaped hip hshape hend
  have hcolon : ':' ∉ first := hfirst.not_mem (by decide)
  rw [htake, Address.takeWhile_path hcolon,
    Address.hasSingleColon_path hcolon (hsecond.not_mem (by decide)), Bool.or_false] at hmarks
  refine ⟨first, second, text.drop ip, ?_, hfirst, hsecond, ⟨hgroup, hgroup', hmarks⟩, hblanks⟩
  calc text = text.take ip ++ text.drop ip := (List.take_append_drop ip text).symm
    _ = first ++ ':' :: ':' :: (second ++ text.drop ip) := by rw [htake]; simp

theorem ofWord_append (halike : before.Alike before') (h : Spares before text rest) :
    ofWord before (text ++ rest) = ofWord before' text := by
  have hle : Ascii.wordLength text ≤ text.length := Matcher.length_takeWhile_le _ text
  rw [ofWord, ofWord, address?_append halike h, wordLength_append h.stops]
  dsimp only
  rw [List.take_append_of_le_length hle]

theorem ofPunctuation?_append (hne : text ≠ []) (h : Spares before text rest) :
    ofPunctuation? (text ++ rest) = ofPunctuation? text := by
  obtain ⟨c, tail, rfl⟩ := List.exists_cons_of_ne_nil hne
  have hspelling : ∀ entry ∈ punctuation,
      entry.1.isPrefixOf (c :: tail ++ rest) = entry.1.isPrefixOf (c :: tail) := by
    have hbreaks : ∀ entry ∈ punctuation,
        breakers.all (fun c => !entry.1.tail.contains c) = true := by decide
    intro entry hentry
    cases hletters : entry.1 with
    | nil => rfl
    | cons d letters =>
      have hnot := hbreaks entry hentry
      rw [hletters, List.tail_cons] at hnot
      rw [List.cons_append, List.isPrefixOf_cons_cons, List.isPrefixOf_cons_cons,
        h.isPrefixOf_append tail hnot]
  have hfind : ∀ entries : List (List Char × TokenKind), (∀ entry ∈ entries,
      entry.1.isPrefixOf (c :: tail ++ rest) = entry.1.isPrefixOf (c :: tail)) →
      (entries.find? fun entry => entry.1.isPrefixOf (c :: tail ++ rest)) =
        entries.find? fun entry => entry.1.isPrefixOf (c :: tail) := by
    intro entries hentries
    induction entries with
    | nil => rfl
    | cons entry entries ih =>
      rw [List.forall_mem_cons] at hentries
      simp only [List.find?_cons, hentries.1, ih hentries.2]
  exact congrArg (Option.map _) (hfind punctuation hspelling)

end Lexeme

end PipelineLang
