import PipelineLang.Address.Matching
import PipelineLang.Proofs.Literal.Shapes

/-!
# The shapes of addresses

## Main results

- `Address.deaf_matcher`, `Address.deaf_subnetMatcher` — an address is one before whatever
  no literal goes on with
- `Address.counted_matcher` — the marks that an address does not have
-/

namespace PipelineLang.Address

open Matcher

variable {rest text marks : List Char}

/-! ### Dotted quads -/

theorem bounded_octetMatcher : Bounded octetMatcher := bounded_run _ _ _

/-- A text that no address goes on with. A point goes on with one if a digit is behind it. -/
structure Ends (rest : List Char) : Prop where
  head : ∀ c ∈ rest.head?, Ascii.isHexDigit c = false ∧ c ≠ ':'
  point : ∀ tail, rest = '.' :: tail → ∀ c ∈ tail.head?, c.isDigit = false

theorem ends_of_stops (h : Stops rest) : Ends rest where
  head c hc := ⟨h.head (by decide) c hc, fun heq => absurd (h.mem c hc) (by rw [heq]; decide)⟩
  point tail heq := h.digit '.' tail (.inl rfl) heq

theorem isDigit_of_isHexDigit {c : Char} (h : Ascii.isHexDigit c = false) : c.isDigit = false := by
  rw [Ascii.isHexDigit, Bool.or_eq_false_iff, Bool.or_eq_false_iff] at h
  exact h.1.1

theorem deaf_octetMatcher (h : Ends rest) : Deaf rest octetMatcher :=
  deaf_run fun c hc => isDigit_of_isHexDigit (h.head c hc).1

theorem bounded_point : Bounded (exactly '.') := bounded_char _

/-- Behind a text there is no point with an octet behind it. -/
theorem deaf_point {m : Matcher} (h : Ends rest) (hm : Deaf rest m)
    (hnone : ∀ tail : List Char, (∀ c ∈ tail.head?, c.isDigit = false) → m tail = none) :
    Deaf rest ((exactly '.').followedBy m) :=
  hm.exactly_followedBy '.' fun tail heq => hnone tail (h.point tail heq)

theorem octetMatcher_eq_none {tail : List Char} (h : ∀ c ∈ tail.head?, c.isDigit = false) :
    octetMatcher tail = none := run_eq_none Nat.one_pos h

theorem octet_followedBy_eq_none (m : Matcher) {tail : List Char}
    (h : ∀ c ∈ tail.head?, c.isDigit = false) : octetMatcher.followedBy m tail = none := by
  rw [Matcher.followedBy, octetMatcher_eq_none h]
  rfl

theorem bounded_quadMatcher : Bounded quadMatcher :=
  bounded_octetMatcher.followedBy (bounded_point.followedBy (bounded_octetMatcher.followedBy
    (bounded_point.followedBy (bounded_octetMatcher.followedBy
      (bounded_point.followedBy bounded_octetMatcher)))))

theorem deaf_quadMatcher (h : Ends rest) : Deaf rest quadMatcher := by
  have hoctet := deaf_octetMatcher h
  have hlast := deaf_point h hoctet fun _ => octetMatcher_eq_none
  have hthird := deaf_point h (hoctet.followedBy bounded_octetMatcher hlast)
    fun _ => octet_followedBy_eq_none _
  have hsecond := deaf_point h (hoctet.followedBy bounded_octetMatcher hthird)
    fun _ => octet_followedBy_eq_none _
  exact hoctet.followedBy bounded_octetMatcher hsecond

/-- The marks that do not stand in an address. -/
def AreForeign (marks : List Char) : Prop :=
  ∀ mark ∈ marks, Ascii.isHexDigit mark = false ∧ mark ≠ '.' ∧ mark ≠ ':'

theorem AreForeign.notDigit (h : AreForeign marks) : ∀ mark ∈ marks, mark.isDigit = false :=
  fun mark hmark => isDigit_of_isHexDigit (h mark hmark).1

theorem AreForeign.counted_exactly (h : AreForeign marks) {c : Char} (hc : c = '.' ∨ c = ':') :
    Counted marks 0 0 (exactly c) := by
  refine counted_char fun mark hmark => ?_
  obtain ⟨-, hpoint, hcolon⟩ := h mark hmark
  obtain rfl | rfl := hc
  · simpa using hpoint
  · simpa using hcolon

theorem counted_quadMatcher (h : AreForeign marks) : Counted marks 0 0 quadMatcher := by
  have hoctet : Counted marks 0 0 octetMatcher := counted_run h.notDigit
  have hpoint := h.counted_exactly (.inl rfl : '.' = '.' ∨ '.' = ':')
  exact hoctet.followedBy (hpoint.followedBy (hoctet.followedBy
    (hpoint.followedBy (hoctet.followedBy (hpoint.followedBy hoctet)))))

/-! ### Groups -/

/-- What more groups start with: a dotted quad, or a group that the text ends with or that a
colon is behind. -/
theorem moreGroups_eq_some {left n : Nat} {gap afterColon : Bool}
    (h : moreGroups left gap afterColon text = some n) :
    quadMatcher text = some n ∨
      n = (text.takeWhile Ascii.isHexDigit).length ∨
      (∃ rest left', text.drop (text.takeWhile Ascii.isHexDigit).length = ':' :: ':' :: rest ∧
        left' < left ∧ n = (text.takeWhile Ascii.isHexDigit).length + 2 +
          (moreGroups left' true true rest).getD 0) ∨
      ∃ rest left' k, text.drop (text.takeWhile Ascii.isHexDigit).length = ':' :: rest ∧
        left' < left ∧ moreGroups left' gap true rest = some k ∧
        n = (text.takeWhile Ascii.isHexDigit).length + 1 + k := by
  cases left with
  | zero => simp [moreGroups] at h
  | succ left =>
    rw [moreGroups] at h
    split at h
    · next quad hquad =>
      split at hquad
      · rw [Option.ite_none_right_eq_some] at h
        rw [← h.2]
        exact .inl hquad
      · simp at hquad
    · dsimp only at h
      generalize hdigits : (text.takeWhile Ascii.isHexDigit).length = digits at h
      have hhere : (if gap then some digits else none) = some n → n = digits := by
        cases gap <;> simp [eq_comm]
      split at h
      · simp at h
      split at h
      · split at h
        · simp at h
        · exact .inr (.inl (Option.some.inj h).symm)
      split at h
      · next rest hdrop =>
        cases gap with
        | true => exact .inr (.inl (hhere h))
        | false =>
          have hn := (Option.some.inj h).symm
          exact .inr (.inr (.inl ⟨rest, left, hdrop, Nat.lt_succ_self _, hn⟩))
      · next c rest _ hdrop =>
        split at h
        · obtain h | ⟨-, h⟩ := Option.or_eq_some_iff.mp h
          · obtain ⟨k, hk, rfl⟩ := Option.map_eq_some_iff.mp h
            exact .inr (.inr (.inr ⟨c :: rest, left, k, hdrop, Nat.lt_succ_self _, hk, rfl⟩))
          · exact .inr (.inl (hhere h))
        · exact .inr (.inl (hhere h))
      · exact .inr (.inl (hhere h))

theorem bounded_moreGroups (left : Nat) (gap afterColon : Bool) :
    Bounded (moreGroups left gap afterColon) := by
  induction left using Nat.strongRecOn generalizing gap afterColon with
  | ind left ih =>
    intro text n h
    have hdigits := length_takeWhile_le Ascii.isHexDigit text
    obtain hquad | rfl | ⟨rest, left', hdrop, hlt, rfl⟩ | ⟨rest, left', k, hdrop, hlt, hk, rfl⟩ :=
      moreGroups_eq_some h
    · exact bounded_quadMatcher hquad
    · exact hdigits
    · have hlength := congrArg List.length hdrop
      simp only [List.length_drop, List.length_cons] at hlength
      cases hmore : moreGroups left' true true rest with
      | none =>
        rw [Option.getD_none]
        omega
      | some k =>
        have := ih left' hlt true true hmore
        rw [Option.getD_some]
        omega
    · have hlength := congrArg List.length hdrop
      simp only [List.length_drop, List.length_cons] at hlength
      have := ih left' hlt gap true hk
      omega

theorem bounded_groupsMatcher : Bounded groupsMatcher := by
  intro text n h
  unfold groupsMatcher at h
  split at h
  · next rest =>
    obtain rfl := Option.some.inj h
    cases hmore : moreGroups 8 true true rest with
    | none => simp
    | some k =>
      have := bounded_moreGroups 8 true true hmore
      simp only [Option.getD_some, List.length_cons]
      omega
  · exact bounded_moreGroups 8 false false h

theorem countP_colons (h : AreForeign marks) (k : Nat) (rest : List Char) :
    ((':' :: rest).take (k + 1)).countP marks.contains = (rest.take k).countP marks.contains := by
  have hcolon : ¬ marks.contains ':' := by
    rw [List.contains_iff_mem]
    exact fun hmem => (h ':' hmem).2.2 rfl
  rw [List.take_succ_cons, List.countP_cons_of_neg hcolon]

/-- Marks that do not stand in an address do not stand in its groups. -/
theorem counted_moreGroups (h : AreForeign marks) (left : Nat) (gap afterColon : Bool) :
    Counted marks 0 0 (moreGroups left gap afterColon) := by
  have hhex : ∀ mark ∈ marks, Ascii.isHexDigit mark = false := fun mark hmark => (h mark hmark).1
  induction left using Nat.strongRecOn generalizing gap afterColon with
  | ind left ih =>
    intro text n hn
    refine ⟨Nat.zero_le _, ?_⟩
    have hdigits :
        (text.take (text.takeWhile Ascii.isHexDigit).length).countP marks.contains = 0 := by
      rw [take_length_takeWhile, countP_takeWhile hhex]
    obtain hquad | rfl | ⟨rest, left', hdrop, hlt, rfl⟩ | ⟨rest, left', k, hdrop, hlt, hk, rfl⟩ :=
      moreGroups_eq_some hn
    · exact (counted_quadMatcher h hquad).2
    · exact Nat.le_of_eq hdigits
    · rw [Nat.add_assoc, List.take_add, List.countP_append, hdigits, hdrop, Nat.zero_add,
        Nat.add_comm 2, countP_colons h, countP_colons h]
      cases hmore : moreGroups left' true true rest with
      | none => simp
      | some k => exact (ih left' hlt true true hmore).2
    · rw [Nat.add_assoc, List.take_add, List.countP_append, hdigits, hdrop, Nat.zero_add,
        Nat.add_comm 1, countP_colons h]
      exact (ih left' hlt gap true hk).2

theorem counted_groupsMatcher (h : AreForeign marks) : Counted marks 0 0 groupsMatcher := by
  intro text n hn
  unfold groupsMatcher at hn
  split at hn
  · next rest =>
    obtain rfl := Option.some.inj hn
    rw [Nat.add_comm 2, countP_colons h, countP_colons h]
    cases hmore : moreGroups 8 true true rest with
    | none => simp
    | some k => exact counted_moreGroups h 8 true true hmore
  · exact counted_moreGroups h 8 false false hn

/-- Groups do not go on in what may stand right behind an expression. -/
theorem deaf_moreGroups (h : Ends rest) (left : Nat) (gap afterColon : Bool) :
    Deaf rest (moreGroups left gap afterColon) := by
  induction left using Nat.strongRecOn generalizing gap afterColon with
  | ind left ih =>
    intro text
    cases left with
    | zero => rfl
    | succ left =>
      have hdigits : (text ++ rest).takeWhile Ascii.isHexDigit = text.takeWhile Ascii.isHexDigit :=
        takeWhile_append_of_head fun c hc => (h.head c hc).1
      have hdrop : (text ++ rest).drop (text.takeWhile Ascii.isHexDigit).length =
          text.drop (text.takeWhile Ascii.isHexDigit).length ++ rest :=
        List.drop_append_of_le_length (length_takeWhile_le _ _)
      rw [moreGroups, moreGroups, deaf_quadMatcher h, hdigits]
      dsimp only
      rw [hdrop]
      generalize text.drop (text.takeWhile Ascii.isHexDigit).length = tail
      have hcolon : ∀ c ∈ rest.head?, c ≠ ':' := fun c hc => (h.head c hc).2
      have hhex : ∀ c ∈ rest.head?, Ascii.isHexDigit c = false := fun c hc => (h.head c hc).1
      have hmore := fun gap => ih left (Nat.lt_succ_self _) gap true
      congr 1
      -- What is behind the digits is a colon, or what is behind the text is next.
      cases tail with
      | nil =>
        cases rest with
        | nil => rfl
        | cons c rest => simp [hcolon c rfl]
      | cons c tail =>
        by_cases hc : c = ':'
        · subst hc
          cases tail with
          | nil =>
            cases rest with
            | nil => rfl
            | cons d rest => simp [hcolon d rfl, hhex d rfl]
          | cons d tail =>
            by_cases hd : d = ':'
            · subst hd
              simp [hmore true tail]
            · have hrest := hmore gap (d :: tail)
              rw [List.cons_append] at hrest
              simp [hrest]
        · simp [hc]

theorem groupsMatcher_eq (h : ∀ tail, text ≠ ':' :: ':' :: tail) :
    groupsMatcher text = moreGroups 8 false false text := by
  unfold groupsMatcher
  split
  · next tail => exact absurd rfl (h tail)
  · rfl

theorem deaf_groupsMatcher (h : Ends rest) : Deaf rest groupsMatcher := by
  intro text
  have hcolon : ∀ c ∈ rest.head?, c ≠ ':' := fun c hc => (h.head c hc).2
  by_cases hopen : ∃ tail, text = ':' :: ':' :: tail
  · obtain ⟨tail, rfl⟩ := hopen
    have hmore := deaf_moreGroups h 8 true true tail
    simp [groupsMatcher, hmore]
  · rw [not_exists] at hopen
    have hopen' : ∀ tail, text ++ rest ≠ ':' :: ':' :: tail := by
      intro tail heq
      match text, hopen with
      | [], _ =>
        have hrest : rest = ':' :: ':' :: tail := heq
        exact hcolon ':' (by simp [hrest]) rfl
      | [c], _ =>
        have hrest : rest = ':' :: tail := (List.cons.inj heq).2
        exact hcolon ':' (by simp [hrest]) rfl
      | c :: d :: more, hopen =>
        obtain ⟨rfl, hrest⟩ := List.cons.inj heq
        obtain ⟨rfl, -⟩ := List.cons.inj hrest
        exact hopen more rfl
    rw [groupsMatcher_eq hopen, groupsMatcher_eq hopen', deaf_moreGroups h]

/-! ### Addresses and subnets -/

theorem bounded_matcher : Bounded matcher := bounded_quadMatcher.longer bounded_groupsMatcher

theorem deaf_matcher (h : Ends rest) : Deaf rest matcher :=
  (deaf_quadMatcher h).longer (deaf_groupsMatcher h)

/-- The marks that do not stand in an address do not stand in what is matched. -/
theorem counted_matcher (h : AreForeign marks) : Counted marks 0 0 matcher :=
  (counted_quadMatcher h).longer (counted_groupsMatcher h)

theorem bounded_lengthMatcher (most : Nat) : Bounded (lengthMatcher most) :=
  (bounded_char _).followedBy (bounded_run _ _ _)

theorem deaf_lengthMatcher (h : Stops rest) (most : Nat) : Deaf rest (lengthMatcher most) :=
  Deaf.exactly_followedBy '/' (deaf_run (h.head (by decide)))
    fun tail htail => run_eq_none Nat.one_pos (h.digit '/' tail (.inr rfl) htail)

theorem bounded_subnetMatcher : Bounded subnetMatcher :=
  (bounded_quadMatcher.followedBy (bounded_lengthMatcher 2)).longer
    (bounded_groupsMatcher.followedBy (bounded_lengthMatcher 3))

theorem deaf_subnetMatcher (h : Stops rest) : Deaf rest subnetMatcher :=
  have hends := ends_of_stops h
  ((deaf_quadMatcher hends).followedBy bounded_quadMatcher (deaf_lengthMatcher h 2)).longer
    ((deaf_groupsMatcher hends).followedBy bounded_groupsMatcher (deaf_lengthMatcher h 3))

end PipelineLang.Address
