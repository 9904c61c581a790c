import PipelineLang.Proofs.Address.Groups
import PipelineLang.Proofs.Token.Spelling

/-!
# The longest literal

## Main definitions

- `Lexeme.Apart` — two matchers that never take the same

## Main results

- `Lexeme.literal?_exact` — a literal is the same one where the text ends behind it

## Design notes

Where a text ends, a matcher that goes before another one could come to take as much as it.
It does not, since two sorts of literals differ in the marks that they have.
-/

namespace PipelineLang

open Matcher

/-! ### The marks of literals -/

theorem Matcher.forall_marks {marks : List Char} {p : Char → Bool}
    (h : (marks.all fun mark => !p mark) = true) : ∀ mark ∈ marks, p mark = false :=
  fun mark hmark => by simpa using List.all_eq_true.mp h mark hmark

namespace Address

theorem counted_points_quadMatcher : Counted ['.', ':'] 3 3 quadMatcher := by
  have hoctet : Counted ['.', ':'] 0 0 octetMatcher := counted_run (forall_marks (by decide))
  have hpoint : Counted ['.', ':'] 1 1 (exactly '.') := counted_exactly (by simp)
  exact hoctet.followedBy (hpoint.followedBy (hoctet.followedBy (hpoint.followedBy
    (hoctet.followedBy (hpoint.followedBy hoctet)))))

/-- Groups without a gap have colons between them, or the points of a dotted quad. -/
theorem two_le_countP_moreGroups {left n : Nat} {afterColon : Bool} {text : List Char}
    (h : moreGroups (left + 1) false afterColon text = some n) :
    min 2 left ≤ (text.take n).countP ['.', ':'].contains := by
  induction left generalizing text n afterColon with
  | zero => exact Nat.le_trans (Nat.min_le_right _ _) (Nat.zero_le _)
  | succ left ih =>
    rw [moreGroups_succ] at h
    split at h
    · next quad hquad =>
      rw [Option.ite_none_right_eq_some] at h hquad
      obtain rfl := Option.some.inj h.2
      have := (counted_points_quadMatcher hquad.2).1
      omega
    · dsimp only at h
      generalize (text.takeWhile Ascii.isHexDigit).length = digits at h
      split at h
      · simp at h
      rw [if_neg (Nat.succ_ne_zero left)] at h
      obtain ⟨hgap, -⟩ | ⟨-, tail, hdrop, rfl⟩ | ⟨c, tail, k, hdrop, -, -, hk, rfl⟩ :=
        behindGroup_cases h
      · simp at hgap
      · rw [List.take_add, List.countP_append, hdrop, Nat.add_comm 2, List.take_succ_cons,
          List.take_succ_cons, List.countP_cons_of_pos rfl, List.countP_cons_of_pos rfl]
        omega
      · have := ih hk
        rw [List.take_add, List.countP_append, hdrop, Nat.add_comm 1, List.take_succ_cons,
          List.countP_cons_of_pos rfl]
        omega

theorem two_le_countP_groupsMatcher {text : List Char} {n : Nat}
    (h : groupsMatcher text = some n) : 2 ≤ (text.take n).countP ['.', ':'].contains := by
  by_cases hopen : ∃ tail, text = ':' :: ':' :: tail
  · obtain ⟨tail, rfl⟩ := hopen
    rw [groupsMatcher, Option.some.injEq] at h
    rw [← h, Nat.add_comm 2, List.take_succ_cons, List.take_succ_cons,
      List.countP_cons_of_pos rfl, List.countP_cons_of_pos rfl]
    omega
  · rw [not_exists] at hopen
    rw [groupsMatcher_eq hopen] at h
    exact two_le_countP_moreGroups h

end Address

namespace Lexeme

/-- Two matchers never take the same. -/
def Apart (a b : Matcher) : Prop := ∀ ⦃text n⦄, a text = some n → b text ≠ some n

theorem apart_of_counted {marks : List Char} {a b : Matcher} {least most least' most' : Nat}
    (ha : Counted marks least most a) (hb : Counted marks least' most' b)
    (h : most < least' ∨ most' < least) : Apart a b := fun _ _ hn => ha.not_both hb h hn

theorem counted_subnetMatcher {marks : List Char} {slashes : Nat} (h : Address.AreForeign marks)
    (hslash : Counted marks slashes slashes (exactly '/')) :
    Counted marks slashes slashes Address.subnetMatcher := by
  have hlength : ∀ most, Counted marks slashes slashes (Address.lengthMatcher most) :=
    fun most => hslash.followedBy (counted_run h.notDigit)
  have hquad := (Address.counted_quadMatcher h).followedBy (hlength 2)
  have hgroups := (Address.counted_groupsMatcher h).followedBy (hlength 3)
  rw [Nat.zero_add] at hquad hgroups
  exact hquad.longer hgroups

/-- A point in time has two hyphens at least, and no other literal has. -/
theorem time_apart : ∀ b ∈ [Address.subnetMatcher, Address.matcher, Number.matcher,
    Duration.matcher], Apart Time.matcher b := by
  have hforeign : Address.AreForeign ['-'] := by
    intro mark hmark
    obtain rfl := List.mem_singleton.mp hmark
    decide
  have htime : Counted ['-'] 2 3 Time.matcher :=
    Time.counted_matcher (forall_marks (by decide)) (by simp) (counted_exactly (by simp))
      (counted_char_le _ _)
  have hsubnet := counted_subnetMatcher hforeign (counted_char (forall_marks (by decide)))
  have hfraction : Counted ['-'] 0 0 Number.fraction :=
    (counted_char (forall_marks (by decide))).followedBy
      (Number.counted_groups (forall_marks (by decide)))
  have hexponent : Counted ['-'] 0 1 Number.exponent :=
    (counted_char (forall_marks (by decide))).followedBy
      ((counted_char_le _ _).optional.followedBy
        (Number.counted_groups (forall_marks (by decide))))
  have hnumber : Counted ['-'] 0 1 Number.matcher :=
    Number.counted_matcher hfraction hexponent (forall_marks (by decide)) (by decide)
  have hduration : Counted ['-'] 0 0 Duration.matcher :=
    Duration.counted_matcher (forall_marks (by decide)) (by decide)
  simp only [List.mem_cons, List.not_mem_nil, or_false, forall_eq_or_imp, forall_eq]
  exact ⟨apart_of_counted htime hsubnet (.inr (by decide)),
    apart_of_counted htime (Address.counted_matcher hforeign) (.inr (by decide)),
    apart_of_counted htime hnumber (.inr (by decide)),
    apart_of_counted htime hduration (.inr (by decide))⟩

/-- A subnet has a slash, and no literal behind it has. -/
theorem subnet_apart : ∀ b ∈ [Address.matcher, Number.matcher, Duration.matcher],
    Apart Address.subnetMatcher b := by
  have hforeign : Address.AreForeign ['/'] := by
    intro mark hmark
    obtain rfl := List.mem_singleton.mp hmark
    decide
  have hsubnet := counted_subnetMatcher hforeign (counted_exactly (by simp))
  have hfraction : Counted ['/'] 0 0 Number.fraction :=
    (counted_char (forall_marks (by decide))).followedBy
      (Number.counted_groups (forall_marks (by decide)))
  have hexponent : Counted ['/'] 0 0 Number.exponent :=
    (counted_char (forall_marks (by decide))).followedBy
      ((counted_char (forall_marks (by decide))).optional.followedBy
        (Number.counted_groups (forall_marks (by decide))))
  have hnumber : Counted ['/'] 0 0 Number.matcher :=
    Number.counted_matcher hfraction hexponent (forall_marks (by decide)) (by decide)
  have hduration : Counted ['/'] 0 0 Duration.matcher :=
    Duration.counted_matcher (forall_marks (by decide)) (by decide)
  simp only [List.mem_cons, List.not_mem_nil, or_false, forall_eq_or_imp, forall_eq]
  exact ⟨apart_of_counted hsubnet (Address.counted_matcher hforeign) (.inr (by decide)),
    apart_of_counted hsubnet hnumber (.inr (by decide)),
    apart_of_counted hsubnet hduration (.inr (by decide))⟩

/-- An address has two points or colons at least, and no literal behind it has. -/
theorem address_apart : ∀ b ∈ [Number.matcher, Duration.matcher], Apart Address.matcher b := by
  have haddress : ∀ {text : List Char} {n : Nat}, Address.matcher text = some n →
      2 ≤ (text.take n).countP ['.', ':'].contains := by
    intro text n h
    obtain ⟨h, -⟩ | ⟨h, -⟩ := longer_eq_some.mp h
    · have := (Address.counted_points_quadMatcher h).1
      omega
    · exact Address.two_le_countP_groupsMatcher h
  have hfraction : Counted ['.', ':'] 0 1 Number.fraction :=
    (counted_char_le _ _).followedBy (Number.counted_groups (forall_marks (by decide)))
  have hexponent : Counted ['.', ':'] 0 0 Number.exponent :=
    (counted_char (forall_marks (by decide))).followedBy
      ((counted_char (forall_marks (by decide))).optional.followedBy
        (Number.counted_groups (forall_marks (by decide))))
  have hnumber : Counted ['.', ':'] 0 1 Number.matcher :=
    Number.counted_matcher hfraction hexponent (forall_marks (by decide)) (by decide)
  have hduration : Counted ['.', ':'] 0 0 Duration.matcher :=
    Duration.counted_matcher (forall_marks (by decide)) (by decide)
  simp only [List.mem_cons, List.not_mem_nil, or_false, forall_eq_or_imp, forall_eq]
  refine ⟨fun text n h h' => ?_, fun text n h h' => ?_⟩
  · have := haddress h
    have := (hnumber h').2
    omega
  · have := haddress h
    have := (hduration h').2
    omega

/-- A duration has a letter that no number has. -/
theorem number_apart : Apart Number.matcher Duration.matcher := by
  have hfraction : Counted ['n', 'u', 'm', 's', 'h', 'd', 'w', 'y'] 0 0 Number.fraction :=
    (counted_char (forall_marks (by decide))).followedBy
      (Number.counted_groups (forall_marks (by decide)))
  have hexponent : Counted ['n', 'u', 'm', 's', 'h', 'd', 'w', 'y'] 0 0 Number.exponent :=
    (counted_char (forall_marks (by decide))).followedBy
      ((counted_char (forall_marks (by decide))).optional.followedBy
        (Number.counted_groups (forall_marks (by decide))))
  have hnumber : Counted ['n', 'u', 'm', 's', 'h', 'd', 'w', 'y'] 0 0 Number.matcher :=
    Number.counted_matcher hfraction hexponent (forall_marks (by decide)) (by decide)
  have hduration : Counted ['n', 'u', 'm', 's', 'h', 'd', 'w', 'y'] 1 7 Duration.matcher :=
    Duration.counted_matcher (forall_marks (by decide)) (by decide)
  exact apart_of_counted hnumber hduration (.inl (by decide))

theorem pairwise_apart : literals.Pairwise fun a b => Apart a.2 b.2 := by
  have htime := time_apart
  have hsubnet := subnet_apart
  have haddress := address_apart
  simp only [List.mem_cons, List.not_mem_nil, or_false, forall_eq_or_imp, forall_eq] at htime
  simp only [List.mem_cons, List.not_mem_nil, or_false, forall_eq_or_imp, forall_eq] at hsubnet
  simp only [List.mem_cons, List.not_mem_nil, or_false, forall_eq_or_imp, forall_eq] at haddress
  simp only [literals, List.pairwise_cons, List.mem_cons, List.not_mem_nil, or_false,
    forall_eq_or_imp, forall_eq, false_imp_iff, implies_true, List.Pairwise.nil, and_true]
  exact ⟨htime, hsubnet, haddress, number_apart⟩

/-! ### The longest of some literals -/

variable {text : List Char} {best : Option Lexeme} {matchers : List (TokenKind × Matcher)}
  {lexeme : Lexeme}

theorem longest_cons (entry : TokenKind × Matcher) (matchers : List (TokenKind × Matcher))
    (text : List Char) (best : Option Lexeme) :
    longest (entry :: matchers) text best =
      longest matchers text (longer best ((entry.2 text).map (Lexeme.mk entry.1))) := rfl

theorem longest_append (front back : List (TokenKind × Matcher)) (text : List Char)
    (best : Option Lexeme) :
    longest (front ++ back) text best = longest back text (longest front text best) :=
  List.foldl_append

/-- What has been found stays if no matcher takes more. -/
theorem longest_of_le
    (h : ∀ entry ∈ matchers, ∀ n, entry.2 text = some n → n ≤ lexeme.length) :
    longest matchers text (some lexeme) = some lexeme := by
  induction matchers with
  | nil => rfl
  | cons entry matchers ih =>
    rw [List.forall_mem_cons] at h
    have hkeep : longer (some lexeme) ((entry.2 text).map (Lexeme.mk entry.1)) = some lexeme := by
      cases hn : entry.2 text with
      | none => rfl
      | some n => exact if_neg (Nat.not_lt.mpr (h.1 n hn))
    rw [longest_cons, hkeep]
    exact ih h.2

/-- What is found is shorter than `n` characters if all that has been taken is. -/
theorem length_longest_lt {n : Nat} (hbest : ∀ found ∈ best, found.length < n)
    (h : ∀ entry ∈ matchers, ∀ k, entry.2 text = some k → k < n) :
    ∀ found ∈ longest matchers text best, found.length < n := by
  intro found hfound
  obtain hfound | ⟨entry, hmem, -, htaken⟩ := (longest_some hfound).1
  · exact hbest found hfound
  · exact h entry hmem _ htaken

theorem bounded_literals : ∀ entry ∈ literals, Bounded entry.2 := by
  simp only [literals, List.mem_cons, List.not_mem_nil, or_false, forall_eq_or_imp,
    forall_eq]
  exact ⟨Time.bounded_matcher, Address.bounded_subnetMatcher, Address.bounded_matcher,
    Number.bounded_matcher, Duration.bounded_matcher⟩

theorem exact_literals : ∀ entry ∈ literals, Exact entry.2 := by
  simp only [literals, List.mem_cons, List.not_mem_nil, or_false, forall_eq_or_imp,
    forall_eq]
  exact ⟨Time.cuts_matcher.exact, Address.exact_subnetMatcher, Address.exact_matcher,
    Number.cuts_matcher.exact, Duration.cuts_matcher.exact⟩

/-- A literal is the same one where the text ends behind it. -/
theorem literal?_exact {rest : List Char} {kind : TokenKind}
    (h : literal? (text ++ rest) = some ⟨kind, text.length⟩) :
    literal? text = some ⟨kind, text.length⟩ := by
  rw [literal?_eq_longest] at h ⊢
  obtain hnone | ⟨⟨kind, matcher⟩, hmem, rfl, htaken⟩ := (longest_some h).1
  · simp at hnone
  dsimp only at hmem htaken ⊢
  have hexact := exact_literals _ hmem htaken
  have hapart := pairwise_apart
  have hbounded := bounded_literals
  obtain ⟨front, back, hsplit⟩ := List.append_of_mem hmem
  rw [hsplit] at hapart hbounded ⊢
  have hfront : ∀ entry ∈ front, ∀ n, entry.2 text = some n → n < text.length := by
    intro entry hentry n hn
    have hle := hbounded entry (List.mem_append_left _ hentry) hn
    refine Nat.lt_of_le_of_ne hle ?_
    rintro rfl
    exact (List.pairwise_append.mp hapart).2.2 entry hentry _ List.mem_cons_self hn hexact
  have hbest : ∀ found ∈ longest front text none, found.length < text.length :=
    length_longest_lt (by simp) hfront
  have hlonger : longer (longest front text none) (some ⟨kind, text.length⟩) =
      some ⟨kind, text.length⟩ := by
    cases hfound : longest front text none with
    | none => rfl
    | some found => exact if_pos (hbest found hfound)
  have hback : longest back text (some ⟨kind, text.length⟩) = some ⟨kind, text.length⟩ :=
    longest_of_le fun entry hentry n hn =>
      hbounded entry (List.mem_append_right _ (List.mem_cons_of_mem _ hentry)) hn
  rw [longest_append, longest_cons, hexact, Option.map_some, hlonger, hback]

end Lexeme

end PipelineLang
