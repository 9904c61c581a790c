import PipelineLang.Literal.Duration
import PipelineLang.Literal.Number
import PipelineLang.Literal.Time
import PipelineLang.Proofs.Text.Matching

/-!
# The shapes of literals

## Main definitions

- `Halts` — a text that may stand right behind an expression
- `Stops` — a text that no literal goes on with

## Main results

- `Number.cuts_matcher`, `Duration.cuts_matcher`, `Time.cuts_matcher` — a literal is one
  where the text ends behind it
- `Number.deaf_matcher`, `Duration.deaf_matcher`, `Time.deaf_matcher` — and before
  whatever no literal goes on with
-/

namespace PipelineLang

open Matcher

/-- The characters that may stand right behind an expression. -/
def closers : List Char := [' ', ',', ')', ']', '\x7d', '[', '?', '=', '\n', '.']

/-- Whether a text may stand right behind an expression: no literal goes on with it. A
point goes on with a number if a digit is behind it. -/
def Halts (rest : List Char) : Prop :=
  (∀ c ∈ rest.head?, c ∈ closers) ∧
    ∀ tail, rest = '.' :: tail → ∀ c ∈ tail.head?, c.isDigit = false

theorem Halts.head {rest : List Char} (h : Halts rest) {p : Char → Bool}
    (hp : (closers.all fun c => !p c) = true) : ∀ c ∈ rest.head?, p c = false :=
  fun c hc => by simpa using List.all_eq_true.mp hp c (h.1 c hc)

theorem Halts.not_mem {rest : List Char} (h : Halts rest) {letters : List Char}
    (hletters : (closers.all fun c => !letters.contains c) = true) :
    ∀ c ∈ rest.head?, c ∉ letters :=
  fun c hc => by simpa using List.all_eq_true.mp hletters c (h.1 c hc)

/-- A text that no literal goes on with: one that may stand right behind an expression, or a
comment. A point goes on with a number, and a slash with an address, if a digit is behind it. -/
structure Stops (rest : List Char) : Prop where
  mem : ∀ c ∈ rest.head?, c ∈ '/' :: closers
  digit : ∀ c tail, c = '.' ∨ c = '/' → rest = c :: tail → ∀ d ∈ tail.head?, d.isDigit = false

theorem Halts.stops {rest : List Char} (h : Halts rest) : Stops rest where
  mem c hc := List.mem_cons_of_mem _ (h.1 c hc)
  digit c tail hc heq := by
    obtain rfl | rfl := hc
    · exact h.2 tail heq
    · exact absurd (h.1 '/' (by rw [heq]; rfl)) (by decide)

theorem Stops.head {rest : List Char} (h : Stops rest) {p : Char → Bool}
    (hp : (('/' :: closers).all fun c => !p c) = true) : ∀ c ∈ rest.head?, p c = false :=
  fun c hc => by simpa using List.all_eq_true.mp hp c (h.mem c hc)

theorem Stops.not_mem {rest : List Char} (h : Stops rest) {letters : List Char}
    (hletters : (('/' :: closers).all fun c => !letters.contains c) = true) :
    ∀ c ∈ rest.head?, c ∉ letters :=
  fun c hc => by simpa using List.all_eq_true.mp hletters c (h.mem c hc)

theorem run_eq_none {p : Char → Bool} {least most : Nat} {tail : List Char} (hleast : 0 < least)
    (h : ∀ c ∈ tail.head?, p c = false) : run p least most tail = none := by
  have hdeaf : run p least most ([] ++ tail) = run p least most [] := deaf_run h []
  rw [← List.nil_append tail, hdeaf]
  simp only [run, List.take_nil, List.takeWhile_nil, List.length_nil, ite_eq_right_iff]
  omega

/-! ### Numbers -/

namespace Number

/-- Whether `c` stands in a group of digits. -/
def isGroupChar (c : Char) : Bool := c.isDigit || c == '_'

/-- Groups take digits and underscores, and an underscore only with a digit behind it. -/
theorem groupsFrom_spec (length : Nat) (held : Bool) (text : List Char) :
    groupsFrom length held text = length ∨
      ∃ m, groupsFrom length held text = length + held.toNat + m ∧ 0 < m ∧ m ≤ text.length ∧
        ∀ c ∈ text.take m, isGroupChar c := by
  induction text generalizing length held with
  | nil => exact .inl rfl
  | cons c rest ih =>
    rw [groupsFrom]
    split
    · next hc =>
      have hchar : isGroupChar c := by simp [isGroupChar, hc]
      obtain h | ⟨m, h, -, hle, hall⟩ := ih (length + 1 + held.toNat) false
      · refine .inr ⟨1, by rw [h]; omega, Nat.one_pos, by simp, by simpa using hchar⟩
      · refine .inr ⟨m + 1, by rw [h, Bool.toNat_false]; omega, Nat.succ_pos m, by simpa, ?_⟩
        rw [List.take_succ_cons, List.forall_mem_cons]
        exact ⟨hchar, hall⟩
    · split
      · next hc =>
        simp only [Bool.and_eq_true, beq_iff_eq, Bool.not_eq_true'] at hc
        obtain ⟨rfl, rfl⟩ := hc
        obtain h | ⟨m, h, -, hle, hall⟩ := ih length true
        · exact .inl h
        · refine .inr ⟨m + 1, by rw [h, Bool.toNat_false, Bool.toNat_true]; omega,
            Nat.succ_pos m, by simpa, ?_⟩
          rw [List.take_succ_cons, List.forall_mem_cons]
          exact ⟨by decide, hall⟩
      · exact .inl rfl

theorem groups_eq_some {text : List Char} {n : Nat} :
    groups text = some n ↔
      ∃ c tail, text = c :: tail ∧ c.isDigit ∧ groupsFrom 1 false tail = n := by
  cases text with
  | nil => simp [groups]
  | cons c tail =>
    simp only [groups]
    constructor
    · intro h
      split at h
      · next hc =>
        obtain rfl := Option.some.inj h
        exact ⟨c, tail, rfl, hc, rfl⟩
      · simp at h
    · rintro ⟨d, rest, heq, hd, rfl⟩
      obtain ⟨rfl, rfl⟩ := List.cons.inj heq
      rw [if_pos hd]

theorem bounded_groups : Bounded groups := by
  intro text n h
  obtain ⟨c, tail, rfl, -, rfl⟩ := groups_eq_some.mp h
  rw [List.length_cons]
  obtain h | ⟨m, h, -, hle, -⟩ := groupsFrom_spec 1 false tail
  · omega
  · rw [h, Bool.toNat_false]
    omega

theorem stays_groups : Stays groups := by
  intro text n rest h
  obtain ⟨c, tail, rfl, hc, -⟩ := groups_eq_some.mp h
  exact ⟨_, groups_eq_some.mpr ⟨c, tail ++ rest, rfl, hc, rfl⟩⟩

theorem groupsFrom_cut {length : Nat} {held : Bool} {text rest : List Char}
    (h : groupsFrom length held (text ++ rest) ≤ length + held.toNat + text.length) :
    groupsFrom length held text = groupsFrom length held (text ++ rest) := by
  induction text generalizing length held with
  | nil =>
    rw [List.length_nil, Nat.add_zero, List.nil_append] at h
    obtain hrest | ⟨m, hrest, hpos, -⟩ := groupsFrom_spec length held rest
    · rw [List.nil_append, hrest]
      rfl
    · omega
  | cons c text ih =>
    rw [List.cons_append, groupsFrom, groupsFrom] at *
    rw [List.length_cons] at h
    split
    · next hc =>
      rw [if_pos hc] at h
      exact ih (by rw [Bool.toNat_false]; omega)
    · next hc =>
      rw [if_neg hc] at h
      split
      · next hheld =>
        rw [if_pos hheld] at h
        obtain ⟨-, rfl⟩ : c = '_' ∧ held = false := by simpa using hheld
        exact ih (by rw [Bool.toNat_true]; rw [Bool.toNat_false] at h; omega)
      · rfl

theorem cuts_groups : Cuts groups := by
  intro text rest n h hn
  obtain ⟨c, tail, heq, hc, rfl⟩ := groups_eq_some.mp h
  cases text with
  | nil =>
    obtain hrest | ⟨m, hrest, -⟩ := groupsFrom_spec 1 false tail
    · rw [hrest] at hn; simp at hn
    · rw [hrest] at hn; simp at hn
  | cons d text =>
    obtain ⟨rfl, rfl⟩ : d = c ∧ text ++ rest = tail := by simpa using heq
    rw [List.length_cons] at hn
    exact groups_eq_some.mpr ⟨d, text, rfl, hc,
      groupsFrom_cut (by rw [Bool.toNat_false]; omega)⟩

theorem deaf_groups {rest : List Char} (h : ∀ c ∈ rest.head?, isGroupChar c = false) :
    Deaf rest groups := by
  have hend : ∀ (length : Nat) (held : Bool), groupsFrom length held rest = length := by
    intro length held
    cases rest with
    | nil => rfl
    | cons c rest =>
      have hc := h c (by simp)
      simp only [isGroupChar, Bool.or_eq_false_iff] at hc
      rw [groupsFrom, hc.1, hc.2]
      rfl
  have hfrom : ∀ (length : Nat) (held : Bool) (text : List Char),
      groupsFrom length held (text ++ rest) = groupsFrom length held text := by
    intro length held text
    induction text generalizing length held with
    | nil => exact hend length held
    | cons c text ih => simp only [List.cons_append, groupsFrom, ih]
  intro text
  cases text with
  | nil =>
    cases rest with
    | nil => rfl
    | cons c rest =>
      have hc := h c (by simp)
      simp only [isGroupChar, Bool.or_eq_false_iff] at hc
      simp [groups, hc.1]
  | cons c text => simp only [List.cons_append, groups, hfrom]

theorem counted_groups {marks : List Char} (h : ∀ mark ∈ marks, isGroupChar mark = false) :
    Counted marks 0 0 groups := by
  intro text n hn
  obtain ⟨c, tail, rfl, hc, rfl⟩ := groups_eq_some.mp hn
  have hall : ∀ d ∈ (c :: tail).take (groupsFrom 1 false tail), isGroupChar d := by
    have hchar : isGroupChar c := by simp [isGroupChar, hc]
    obtain hfrom | ⟨m, hfrom, -, -, hall⟩ := groupsFrom_spec 1 false tail
    · rw [hfrom]
      simpa using hchar
    · rw [hfrom, Bool.toNat_false, Nat.add_zero, Nat.add_comm, List.take_succ_cons,
        List.forall_mem_cons]
      exact ⟨hchar, hall⟩
  have hnone : ((c :: tail).take (groupsFrom 1 false tail)).countP marks.contains = 0 := by
    rw [List.countP_eq_zero]
    intro d hd
    simp [not_mem_marks h (hall d hd)]
  rw [hnone]
  exact ⟨Nat.le_refl 0, Nat.le_refl 0⟩

theorem bounded_sign : Bounded (char fun c => c == '+' || c == '-').optional :=
  (bounded_char _).optional

theorem stays_exponent : Stays exponent :=
  (stays_optional_followedBy stays_groups rfl).followedBy (rigid_char _) (bounded_char _)

theorem cuts_exponent : Cuts exponent :=
  (cuts_char _).followedBy
    (((cuts_char _).optional (rigid_char _).stays).followedBy cuts_groups)

theorem bounded_exponent : Bounded exponent :=
  (bounded_char _).followedBy (bounded_sign.followedBy bounded_groups)

theorem deaf_exponent {rest : List Char} (h : Stops rest) : Deaf rest exponent :=
  (deaf_char (h.head (by decide))).followedBy (bounded_char _)
    ((deaf_char (h.head (by decide))).optional.followedBy bounded_sign
      (deaf_groups (h.head (by decide))))

theorem stays_fraction : Stays fraction :=
  stays_groups.followedBy (rigid_char _) (bounded_char _)

theorem cuts_fraction : Cuts fraction := (cuts_char _).followedBy cuts_groups

theorem bounded_fraction : Bounded fraction := (bounded_char _).followedBy bounded_groups

theorem deaf_fraction {rest : List Char} (h : Stops rest) : Deaf rest fraction := by
  refine Deaf.exactly_followedBy '.' (deaf_groups (h.head (by decide))) fun tail htail => ?_
  cases tail with
  | nil => rfl
  | cons c tail => simp [groups, h.digit '.' _ (.inl rfl) htail c (by simp)]

theorem cuts_matcher : Cuts matcher :=
  cuts_groups.followedBy ((cuts_fraction.optional stays_fraction).followedBy
    ((cuts_exponent.optional stays_exponent).followedBy
      ((cuts_firstWord _).optional (stays_firstWord _))))

theorem bounded_matcher : Bounded matcher :=
  bounded_groups.followedBy (bounded_fraction.optional.followedBy
    (bounded_exponent.optional.followedBy (bounded_firstWord _).optional))

theorem deaf_matcher {rest : List Char} (h : Stops rest) : Deaf rest matcher := by
  have hunits : ∀ letters ∈ NumberUnit.suffixes.map (·.1.toList),
      (('/' :: closers).all fun c => !letters.contains c) = true := by
    decide
  exact (deaf_groups (h.head (by decide))).followedBy bounded_groups
    ((deaf_fraction h).optional.followedBy bounded_fraction.optional
      ((deaf_exponent h).optional.followedBy bounded_exponent.optional
        (deaf_firstWord fun letters hmem => h.not_mem (hunits letters hmem)).optional))

/-- A number has no marks that its groups, its exponent and its units do not have, apart
from its point and the sign of its exponent. -/
theorem counted_matcher {marks : List Char} {points signs : Nat}
    (hfraction : Counted marks 0 points fraction) (hexponent : Counted marks 0 signs exponent)
    (hgroups : ∀ mark ∈ marks, isGroupChar mark = false)
    (hunits : ∀ letters ∈ NumberUnit.suffixes.map (·.1.toList),
      letters.countP marks.contains = 0) :
    Counted marks 0 (points + signs) matcher := by
  have hfirst : Counted marks 0 0 (firstWord (NumberUnit.suffixes.map (·.1.toList))) :=
    counted_firstWord fun letters hmem => by rw [hunits letters hmem]; simp
  have hall := (counted_groups hgroups).followedBy
    (hfraction.optional.followedBy (hexponent.optional.followedBy hfirst.optional))
  simpa [matcher, unitMatcher] using hall

end Number

/-! ### Durations -/

namespace Duration

/-- What can be shown of each suffix, and of the longer of two, can be shown of units. -/
theorem unitMatcher_induction {P : Matcher → Prop} (hnone : P fun _ => none)
    (hword : ∀ suffix ∈ DurationUnit.suffixes, P (word suffix.1.toList))
    (hlonger : ∀ a b, P a → P b → P (a.longer b)) : P unitMatcher := by
  have hall : ∀ suffixes : List (String × DurationUnit),
      (∀ suffix ∈ suffixes, P (word suffix.1.toList)) →
      P (suffixes.foldr (fun unit best => (word unit.1.toList).longer best) fun _ => none) := by
    intro suffixes h
    induction suffixes with
    | nil => exact hnone
    | cons suffix suffixes ih =>
      rw [List.forall_mem_cons] at h
      exact hlonger _ _ h.1 (ih h.2)
  exact hall _ hword

theorem cuts_unitMatcher : Cuts unitMatcher :=
  (unitMatcher_induction (P := fun m => Cuts m ∧ Stays m) ⟨cuts_none, stays_none⟩
    (fun _ _ => ⟨cuts_word _, (rigid_word _).stays⟩)
    fun _ _ ha hb => ⟨ha.1.longer hb.1 ha.2 hb.2, ha.2.longer hb.2⟩).1

theorem bounded_unitMatcher : Bounded unitMatcher :=
  unitMatcher_induction bounded_none (fun _ _ => bounded_word _) fun _ _ ha hb => ha.longer hb

theorem deaf_unitMatcher {rest : List Char} (h : Stops rest) : Deaf rest unitMatcher := by
  have hletters : ∀ suffix ∈ DurationUnit.suffixes,
      (('/' :: closers).all fun c => !suffix.1.toList.contains c) = true := by
    decide
  exact unitMatcher_induction (fun _ => rfl)
    (fun suffix hmem => deaf_word (h.not_mem (hletters suffix hmem)))
    fun _ _ ha hb => ha.longer hb

theorem counted_unitMatcher {marks : List Char} {least most : Nat}
    (h : ∀ suffix ∈ DurationUnit.suffixes, least ≤ suffix.1.toList.countP marks.contains ∧
      suffix.1.toList.countP marks.contains ≤ most) : Counted marks least most unitMatcher :=
  unitMatcher_induction (counted_none _ _ _)
    (fun suffix hmem => counted_word (h suffix hmem).1 (h suffix hmem).2)
    fun _ _ ha hb => ha.longer hb

theorem cuts_matcher : Cuts matcher := (cuts_runs _).followedBy cuts_unitMatcher

theorem bounded_matcher : Bounded matcher := (bounded_runs _).followedBy bounded_unitMatcher

theorem deaf_matcher {rest : List Char} (h : Stops rest) : Deaf rest matcher :=
  (deaf_runs (h.head (by decide))).followedBy (bounded_runs _) (deaf_unitMatcher h)

theorem counted_matcher {marks : List Char} {least most : Nat}
    (hdigits : ∀ mark ∈ marks, mark.isDigit = false)
    (h : ∀ suffix ∈ DurationUnit.suffixes, least ≤ suffix.1.toList.countP marks.contains ∧
      suffix.1.toList.countP marks.contains ≤ most) : Counted marks least most matcher := by
  have hall := (counted_runs hdigits).followedBy (counted_unitMatcher h)
  rwa [Nat.zero_add, Nat.zero_add] at hall

end Duration

/-! ### Points in time -/

namespace Time

theorem cuts_date : Cuts date :=
  (cuts_run _ _ _).followedBy ((cuts_char _).followedBy ((cuts_run _ _ _).followedBy
    ((cuts_char _).followedBy (cuts_run _ _ _))))

theorem bounded_date : Bounded date :=
  (bounded_run _ _ _).followedBy ((bounded_char _).followedBy ((bounded_run _ _ _).followedBy
    ((bounded_char _).followedBy (bounded_run _ _ _))))

theorem deaf_date {rest : List Char} (h : Stops rest) : Deaf rest date := by
  have hdigits : ∀ n, Deaf rest (digits n) := fun n => deaf_run (h.head (by decide))
  have hhyphen : Deaf rest (exactly '-') := deaf_char (h.head (by decide))
  exact (hdigits 4).followedBy (bounded_run _ _ _) (hhyphen.followedBy (bounded_char _)
    ((hdigits 2).followedBy (bounded_run _ _ _) (hhyphen.followedBy (bounded_char _)
      (hdigits 2))))

theorem stays_fraction : Stays fraction :=
  (stays_run _ _ _).followedBy (rigid_char _) (bounded_char _)

theorem cuts_fraction : Cuts fraction := (cuts_char _).followedBy (cuts_run _ _ _)

theorem bounded_fraction : Bounded fraction := (bounded_char _).followedBy (bounded_run _ _ _)

theorem deaf_fraction {rest : List Char} (h : Stops rest) : Deaf rest fraction :=
  Deaf.exactly_followedBy '.' (deaf_run (h.head (by decide)))
    fun tail htail => run_eq_none Nat.one_pos (h.digit '.' tail (.inl rfl) htail)

theorem rigid_offset : Rigid ((digits 2).followedBy ((exactly ':').followedBy (digits 2))) :=
  (rigid_digits 2).followedBy (bounded_run _ _ _)
    ((rigid_char _).followedBy (bounded_char _) (rigid_digits 2))

theorem bounded_offset :
    Bounded ((digits 2).followedBy ((exactly ':').followedBy (digits 2))) :=
  (bounded_run _ _ _).followedBy ((bounded_char _).followedBy (bounded_run _ _ _))

theorem stays_zone : Stays zone :=
  (rigid_char _).stays.orElse ((rigid_char _).followedBy (bounded_char _) rigid_offset).stays

theorem cuts_zone : Cuts zone :=
  (cuts_char _).orElse (rigid_char _).stays ((cuts_char _).followedBy
    ((cuts_run _ _ _).followedBy ((cuts_char _).followedBy (cuts_run _ _ _))))

theorem bounded_zone : Bounded zone :=
  (bounded_char _).orElse ((bounded_char _).followedBy bounded_offset)

theorem deaf_zone {rest : List Char} (h : Stops rest) : Deaf rest zone := by
  have hdigits : Deaf rest (digits 2) := deaf_run (h.head (by decide))
  exact (deaf_char (h.head (by decide))).orElse
    ((deaf_char (h.head (by decide))).followedBy (bounded_char _)
      (hdigits.followedBy (bounded_run _ _ _)
        ((deaf_char (h.head (by decide))).followedBy (bounded_char _) hdigits)))

theorem stays_fraction_zone : Stays (fraction.optional.followedBy zone.optional) :=
  fun _ _ _ _ => ⟨_, followedBy_eq_some.mpr ⟨_, _, rfl, rfl, rfl⟩⟩

theorem stays_clock : Stays clock := by
  have hcolon : ∀ {b}, Stays b → Stays ((exactly ':').followedBy b) :=
    fun hb => hb.followedBy (rigid_char _) (bounded_char _)
  have hdigits : ∀ {b}, Stays b → Stays ((digits 2).followedBy b) :=
    fun hb => hb.followedBy (rigid_digits 2) (bounded_run _ _ _)
  exact (hdigits (hcolon (hdigits (hcolon (hdigits stays_fraction_zone))))).followedBy
    (rigid_char _) (bounded_char _)

theorem cuts_clock : Cuts clock := by
  have hcolon : ∀ {b}, Cuts b → Cuts ((exactly ':').followedBy b) :=
    fun hb => (cuts_char _).followedBy hb
  have hdigits : ∀ {b}, Cuts b → Cuts ((digits 2).followedBy b) :=
    fun hb => (cuts_run _ _ _).followedBy hb
  exact (cuts_char _).followedBy (hdigits (hcolon (hdigits (hcolon (hdigits
    ((cuts_fraction.optional stays_fraction).followedBy (cuts_zone.optional stays_zone)))))))

theorem bounded_clock : Bounded clock := by
  have hcolon : ∀ {b}, Bounded b → Bounded ((exactly ':').followedBy b) :=
    fun hb => (bounded_char _).followedBy hb
  have hdigits : ∀ {b}, Bounded b → Bounded ((digits 2).followedBy b) :=
    fun hb => (bounded_run _ _ _).followedBy hb
  exact (bounded_char _).followedBy (hdigits (hcolon (hdigits (hcolon (hdigits
    (bounded_fraction.optional.followedBy bounded_zone.optional))))))

theorem deaf_clock {rest : List Char} (h : Stops rest) : Deaf rest clock := by
  have hcolon : ∀ {b}, Deaf rest b → Deaf rest ((exactly ':').followedBy b) :=
    fun hb => (deaf_char (h.head (by decide))).followedBy (bounded_char _) hb
  have hdigits : ∀ {b}, Deaf rest b → Deaf rest ((digits 2).followedBy b) :=
    fun hb => (deaf_run (h.head (by decide))).followedBy (bounded_run _ _ _) hb
  exact (deaf_char (h.head (by decide))).followedBy (bounded_char _)
    (hdigits (hcolon (hdigits (hcolon (hdigits ((deaf_fraction h).optional.followedBy
      bounded_fraction.optional (deaf_zone h).optional))))))

theorem cuts_matcher : Cuts matcher := cuts_date.followedBy (cuts_clock.optional stays_clock)

theorem bounded_matcher : Bounded matcher := bounded_date.followedBy bounded_clock.optional

theorem deaf_matcher {rest : List Char} (h : Stops rest) : Deaf rest matcher :=
  (deaf_date h).followedBy bounded_date (deaf_clock h).optional

/-- The marks of a point in time are those of its two hyphens and of the sign of its zone. -/
theorem counted_matcher {marks : List Char} {hyphens signs : Nat}
    (hdigit : ∀ mark ∈ marks, mark.isDigit = false)
    (hother : ∀ mark ∈ marks, mark ∉ ['T', ':', '.', 'Z'])
    (hhyphen : Counted marks hyphens hyphens (exactly '-'))
    (hsign : Counted marks 0 signs (char fun c => c == '+' || c == '-')) :
    Counted marks (hyphens + hyphens) (hyphens + hyphens + signs) matcher := by
  have hdigits : ∀ n, Counted marks 0 0 (digits n) := fun n => counted_run hdigit
  have hletter : ∀ c ∈ ['T', ':', '.', 'Z'], Counted marks 0 0 (exactly c) := by
    intro c hc
    refine counted_char fun mark hmark => ?_
    rw [beq_eq_false_iff_ne]
    rintro rfl
    exact hother mark hmark hc
  have hcolon := hletter ':' (by decide)
  have hfraction : Counted marks 0 0 fraction :=
    (hletter '.' (by decide)).followedBy (counted_run hdigit)
  have hzone : Counted marks 0 signs zone := by
    refine Counted.orElse (fun _ _ h => ?_)
      (by simpa using hsign.followedBy ((hdigits 2).followedBy (hcolon.followedBy (hdigits 2))))
    have := hletter 'Z' (by decide) h
    omega
  have hclock := (hletter 'T' (by decide)).followedBy ((hdigits 2).followedBy
    (hcolon.followedBy ((hdigits 2).followedBy (hcolon.followedBy ((hdigits 2).followedBy
      (hfraction.optional.followedBy hzone.optional))))))
  have hdate := (hdigits 4).followedBy (hhyphen.followedBy ((hdigits 2).followedBy
    (hhyphen.followedBy (hdigits 2))))
  have hall := hdate.followedBy hclock.optional
  simpa [matcher, date, clock, Nat.add_assoc] using hall

end Time

end PipelineLang
