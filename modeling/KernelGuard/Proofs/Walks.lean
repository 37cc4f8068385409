import KernelGuard.Draft.Expectation
import KernelGuard.Proofs.WrittenPlaces

/-! What walks along the grammar attempt. A walk goes the same way whatever was missed before
it, the furthest place that it has attempted only moves on, and two walks that had missed
nothing on their way agree on what was missed as soon as they miss something. -/
namespace KernelGuard

namespace Attempts

theorem miss_mark (attempts : Attempts) (symbol : GrammarSymbol) (mark before : Nat) :
    (attempts.miss symbol mark before).mark = min attempts.mark mark := by
  unfold miss
  split
  · change mark = _
    omega
  · split
    · omega
    · split
      · omega
      · change mark = _
        omega

/-- Nothing is missed where the walk has got past it. -/
theorem miss_behind {attempts : Attempts} {mark : Nat} (past : attempts.mark < mark)
    (symbol : GrammarSymbol) (before : Nat) : attempts.miss symbol mark before = attempts := by
  unfold miss
  rw [if_neg (by omega), if_pos past]

/-- What two walks over the end of a text have missed: the same, or both nothing so far. -/
def Like (limit : Nat) (first second : Attempts) : Prop :=
  first = second ∨
    first.symbols = [] ∧ second.symbols = [] ∧ limit ≤ first.mark ∧ limit ≤ second.mark

variable {limit : Nat} {first second : Attempts}

theorem Like.countAt (like : first.Like limit second) (mark : Nat) :
    first.countAt mark = second.countAt mark := by
  rcases like with rfl | ⟨none, none', -, -⟩
  · rfl
  · simp [Attempts.countAt, none, none']

theorem Like.miss (like : first.Like limit second) {mark : Nat} (inside : mark ≤ limit)
    (symbol : GrammarSymbol) (before : Nat) :
    (first.miss symbol mark before).Like limit (second.miss symbol mark before) := by
  rcases like with rfl | ⟨none, none', above, above'⟩
  · exact .inl rfl
  · have alone : ∀ attempts : Attempts, attempts.symbols = [] → limit ≤ attempts.mark →
        attempts.miss symbol mark before = ⟨mark, [symbol]⟩ := by
      intro attempts nothing far
      unfold Attempts.miss
      by_cases beyond : mark < attempts.mark
      · rw [if_pos beyond]
      · rw [if_neg beyond, if_neg (by omega), if_neg (by simp [nothing])]
        simp [nothing]
    left
    rw [alone first none above, alone second none' above']

/-- Walks that are past the place where they began have missed the same. -/
theorem Like.same (like : first.Like limit second) (past : first.mark < limit) :
    first = second := by
  rcases like with same | ⟨-, -, above, -⟩
  · exact same
  · omega

end Attempts

namespace Probe

variable {probe first second next : Probe} {probes : List Probe} {symbol : GrammarSymbol}
  {text middle start rest : List Char} {attempts : Attempts} {limit : Nat}

/-! ## Combinations of probes -/

theorem symbol_of_fits (fits : (probe text attempts).1 = some rest) :
    Probe.symbol symbol probe text attempts = (some rest, (probe text attempts).2) := by
  unfold Probe.symbol
  rcases reached : probe text attempts with ⟨result, after⟩
  rw [reached] at fits
  cases fits
  rfl

theorem symbol_of_refuses (refuses : (probe text attempts).1 = none) :
    Probe.symbol symbol probe text attempts = (none, (probe text attempts).2.miss symbol
      text.length (attempts.countAt text.length)) := by
  unfold Probe.symbol
  rcases reached : probe text attempts with ⟨result, after⟩
  rw [reached] at refuses
  cases refuses
  rfl

theorem join_of_fits (fits : (first text attempts).1 = some middle) :
    first.join second text attempts = second middle (first text attempts).2 := by
  unfold join
  rcases reached : first text attempts with ⟨result, after⟩
  rw [reached] at fits
  cases fits
  rfl

theorem join_of_refuses (refuses : (first text attempts).1 = none) :
    first.join second text attempts = (none, (first text attempts).2) := by
  unfold join
  rcases reached : first text attempts with ⟨result, after⟩
  rw [reached] at refuses
  cases refuses
  rfl

theorem choice_of_fits (fits : (probe text attempts).1 = some rest) :
    choice (probe :: probes) text attempts = (some rest, (probe text attempts).2) := by
  unfold choice
  rcases reached : probe text attempts with ⟨result, after⟩
  rw [reached] at fits
  cases fits
  rfl

theorem choice_of_refuses (refuses : (probe text attempts).1 = none) :
    choice (probe :: probes) text attempts = choice probes text (probe text attempts).2 := by
  conv_lhs => unfold choice
  rcases reached : probe text attempts with ⟨result, after⟩
  rw [reached] at refuses
  cases refuses
  rfl

/-- Walks on as often as it fits, which always fits. -/
def further (probe : Probe) : Probe := fun text attempts =>
  (some (probe.more text attempts).1, (probe.more text attempts).2)

theorem many1_eq_join (probe : Probe) : many1 probe = probe.join (further probe) := by
  funext text attempts
  unfold many1 join
  rcases probe text attempts with ⟨_ | rest, after⟩ <;> rfl

/-! ## Orderly walks -/

/-- A probe that goes on, never back, and does not look at what was missed before. -/
structure Orderly (probe : Probe) : Prop where
  within : ∀ text attempts rest, (probe text attempts).1 = some rest → rest.length ≤ text.length
  sinks : ∀ text attempts, (probe text attempts).2.mark ≤ attempts.mark
  alike : ∀ limit text one other, text.length ≤ limit → Attempts.Like limit one other →
    (probe text one).1 = (probe text other).1 ∧
      (probe text one).2.Like limit (probe text other).2

/-- An orderly probe goes the same way again after other attempts. -/
theorem Orderly.same_way (orderly : Orderly probe) {one other after : Attempts}
    {result : Option (List Char)} (inside : text.length ≤ limit)
    (like : Attempts.Like limit one other) (walked : probe text one = (result, after)) :
    ∃ after', probe text other = (result, after') ∧ Attempts.Like limit after after' := by
  obtain ⟨same, like'⟩ := orderly.alike limit text one other inside like
  rw [walked] at same like'
  exact ⟨(probe text other).2, Prod.ext same.symm rfl, like'⟩

@[simp] theorem orderly_plain {α : Type} {reader : Reader α} (silent : Draft.Silent reader) :
    Orderly (plain reader) where
  within text attempts rest walked := by
    obtain ⟨⟨value, left⟩, read, rfl⟩ := Option.map_eq_some_iff.mp walked
    obtain ⟨met, -, passed⟩ := silent text text value left (List.suffix_refl text) read
    exact passed.suffix.length_le
  sinks text attempts := Nat.le_refl _
  alike limit text one other inside like := ⟨rfl, like⟩

@[simp] theorem orderly_symbol (orderly : Orderly probe) : Orderly (.symbol symbol probe) where
  within text attempts rest walked := by
    cases reached : (probe text attempts).1 with
    | none =>
      rw [symbol_of_refuses reached] at walked
      cases walked
    | some left =>
      rw [symbol_of_fits reached] at walked
      cases walked
      exact orderly.within text attempts rest reached
  sinks text attempts := by
    have sinks := orderly.sinks text attempts
    cases reached : (probe text attempts).1 with
    | none =>
      rw [symbol_of_refuses reached, Attempts.miss_mark]
      omega
    | some left => rwa [symbol_of_fits reached]
  alike limit text one other inside like := by
    obtain ⟨same, like'⟩ := orderly.alike limit text one other inside like
    cases reached : (probe text one).1 with
    | none =>
      rw [symbol_of_refuses reached, symbol_of_refuses (same.symm.trans reached), like.countAt]
      exact ⟨rfl, like'.miss inside _ _⟩
    | some left =>
      rw [symbol_of_fits reached, symbol_of_fits (same.symm.trans reached)]
      exact ⟨rfl, like'⟩

@[simp] theorem orderly_join (front : Orderly first) (behind : Orderly second) :
    Orderly (first.join second) where
  within text attempts rest walked := by
    cases reached : (first text attempts).1 with
    | none =>
      rw [join_of_refuses reached] at walked
      cases walked
    | some middle =>
      rw [join_of_fits reached] at walked
      exact Nat.le_trans (behind.within middle _ rest walked)
        (front.within text attempts middle reached)
  sinks text attempts := by
    have sinks := front.sinks text attempts
    cases reached : (first text attempts).1 with
    | none => rwa [join_of_refuses reached]
    | some middle =>
      rw [join_of_fits reached]
      exact Nat.le_trans (behind.sinks middle _) sinks
  alike limit text one other inside like := by
    obtain ⟨same, like'⟩ := front.alike limit text one other inside like
    cases reached : (first text one).1 with
    | none =>
      rw [join_of_refuses reached, join_of_refuses (same.symm.trans reached)]
      exact ⟨rfl, like'⟩
    | some middle =>
      rw [join_of_fits reached, join_of_fits (same.symm.trans reached)]
      exact behind.alike limit middle _ _
        (Nat.le_trans (front.within text one middle reached) inside) like'

@[simp] theorem orderly_gap : Orderly gap := orderly_plain Draft.silent_gap

@[simp] theorem orderly_sequence (each : ∀ probe ∈ probes, Orderly probe) :
    Orderly (sequence probes) := by
  induction probes with
  | nil => exact orderly_plain (Draft.silent_pure ())
  | cons probe rest ih =>
    obtain ⟨here, later⟩ := List.forall_mem_cons.mp each
    cases rest with
    | nil => exact here
    | cons next rest => exact orderly_join here (orderly_join orderly_gap (ih later))

@[simp] theorem orderly_choice (each : ∀ probe ∈ probes, Orderly probe) :
    Orderly (choice probes) := by
  induction probes with
  | nil =>
    refine ⟨?_, fun _ _ => Nat.le_refl _, fun _ _ _ _ _ like => ⟨rfl, like⟩⟩
    rintro text attempts rest ⟨⟩
  | cons probe rest ih =>
    obtain ⟨here, later⟩ := List.forall_mem_cons.mp each
    have later := ih later
    refine ⟨?_, ?_, ?_⟩
    · intro text attempts left walked
      cases reached : (probe text attempts).1 with
      | none =>
        rw [choice_of_refuses reached] at walked
        exact later.within text _ left walked
      | some middle =>
        rw [choice_of_fits reached] at walked
        cases walked
        exact here.within text attempts left reached
    · intro text attempts
      have sinks := here.sinks text attempts
      cases reached : (probe text attempts).1 with
      | none =>
        rw [choice_of_refuses reached]
        exact Nat.le_trans (later.sinks text _) sinks
      | some middle => rwa [choice_of_fits reached]
    · intro limit text one other inside like
      obtain ⟨same, like'⟩ := here.alike limit text one other inside like
      cases reached : (probe text one).1 with
      | none =>
        rw [choice_of_refuses reached, choice_of_refuses (same.symm.trans reached)]
        exact later.alike limit text _ _ inside like'
      | some middle =>
        rw [choice_of_fits reached, choice_of_fits (same.symm.trans reached)]
        exact ⟨rfl, like'⟩

@[simp] theorem orderly_optional (orderly : Orderly probe) : Orderly (optional probe) :=
  orderly_choice (by simp [orderly, Draft.silent_pure])

@[simp] theorem orderly_further (orderly : Orderly probe) : Orderly (further probe) := by
  have step := orderly_join orderly_gap orderly
  refine ⟨?_, ?_, ?_⟩
  · rintro text attempts rest ⟨⟩
    fun_induction more probe text attempts with
    | case1 text attempts rest after reached shorter ih => omega
    | case2 text attempts rest after reached short => exact Nat.le_refl _
    | case3 text attempts after reached => exact Nat.le_refl _
  · intro text attempts
    change (probe.more text attempts).2.mark ≤ _
    fun_induction more probe text attempts with
    | case1 text attempts rest after reached shorter ih =>
      have sinks := step.sinks text attempts
      rw [reached] at sinks
      exact Nat.le_trans ih sinks
    | case2 text attempts rest after reached short =>
      have sinks := step.sinks text attempts
      rwa [reached] at sinks
    | case3 text attempts after reached =>
      have sinks := step.sinks text attempts
      rwa [reached] at sinks
  · intro limit text one other inside like
    suffices walked : (probe.more text one).1 = (probe.more text other).1 ∧
        (probe.more text one).2.Like limit (probe.more text other).2 from
      ⟨congrArg some walked.1, walked.2⟩
    fun_induction more probe text one generalizing other with
    | case1 text one rest after reached shorter ih =>
      obtain ⟨after', reached', like'⟩ := step.same_way inside like reached
      rw [more.eq_1 probe text other, reached']
      simp only [if_pos shorter]
      exact ih after' (by omega) like'
    | case2 text one rest after reached short =>
      obtain ⟨after', reached', like'⟩ := step.same_way inside like reached
      rw [more.eq_1 probe text other, reached']
      simp only [if_neg short]
      exact ⟨trivial, like'⟩
    | case3 text one after reached =>
      obtain ⟨after', reached', like'⟩ := step.same_way inside like reached
      rw [more.eq_1 probe text other, reached']
      exact ⟨rfl, like'⟩

@[simp] theorem orderly_many1 (orderly : Orderly probe) : Orderly (many1 probe) := by
  rw [many1_eq_join]
  exact orderly_join orderly (orderly_further orderly)

@[simp] theorem orderly_many (orderly : Orderly probe) : Orderly (many probe) :=
  orderly_optional (orderly_many1 orderly)

/-! ## Where a walk gets to -/

/-- A probe fits a text up to some rest, whatever was missed before. -/
def Fits (probe : Probe) (text rest : List Char) : Prop :=
  ∀ attempts, (probe text attempts).1 = some rest

/-- A probe does not fit a text, whatever was missed before. -/
def Refuses (probe : Probe) (text : List Char) : Prop :=
  ∀ attempts, (probe text attempts).1 = none

theorem fits_plain {α : Type} {reader : Reader α} {value : α}
    (read : reader text = some (value, rest)) : Fits (plain reader) text rest := by
  intro attempts
  simp [plain, read]

theorem refuses_plain {α : Type} {reader : Reader α} (refused : reader text = none) :
    Refuses (plain reader) text := by
  intro attempts
  simp [plain, refused]

theorem fits_gap (text : List Char) : Fits gap text (Lexeme.dropGap false text) :=
  fun _ => rfl

theorem fits_symbol (fits : Fits probe text rest) : Fits (.symbol symbol probe) text rest := by
  intro attempts
  rw [symbol_of_fits (fits attempts)]

theorem refuses_symbol (refuses : Refuses probe text) : Refuses (.symbol symbol probe) text := by
  intro attempts
  rw [symbol_of_refuses (refuses attempts)]

theorem fits_join (front : Fits first text middle) (behind : Fits second middle rest) :
    Fits (first.join second) text rest := by
  intro attempts
  rw [join_of_fits (front attempts)]
  exact behind _

theorem refuses_join (front : Refuses first text) : Refuses (first.join second) text := by
  intro attempts
  rw [join_of_refuses (front attempts)]

theorem fits_sequence (front : Fits probe text middle)
    (skips : Lexeme.dropGap false middle = start)
    (behind : Fits (sequence (next :: probes)) start rest) :
    Fits (sequence (probe :: next :: probes)) text rest :=
  fits_join front (fits_join (fits_gap middle) (skips ▸ behind))

theorem refuses_sequence (front : Refuses probe text) :
    Refuses (sequence (probe :: probes)) text := by
  cases probes with
  | nil => exact front
  | cons next probes => exact refuses_join front

theorem fits_choice (here : Fits probe text rest) : Fits (choice (probe :: probes)) text rest := by
  intro attempts
  rw [choice_of_fits (here attempts)]

theorem fits_choice_later (here : Refuses probe text) (later : Fits (choice probes) text rest) :
    Fits (choice (probe :: probes)) text rest := by
  intro attempts
  rw [choice_of_refuses (here attempts)]
  exact later _

theorem refuses_choice (each : ∀ probe ∈ probes, Refuses probe text) :
    Refuses (choice probes) text := by
  induction probes with
  | nil => exact fun _ => rfl
  | cons probe probes ih =>
    obtain ⟨here, later⟩ := List.forall_mem_cons.mp each
    intro attempts
    rw [choice_of_refuses (here attempts)]
    exact ih later _

theorem fits_optional (fits : Fits probe text rest) : Fits (optional probe) text rest :=
  fits_choice fits

theorem fits_optional_none (refuses : Refuses probe text) : Fits (optional probe) text text :=
  fits_choice_later refuses (fits_choice (fits_plain rfl))

theorem more_of_fits {attempts : Attempts}
    (fits : ((gap.join probe) text attempts).1 = some rest) (shorter : rest.length < text.length) :
    probe.more text attempts = probe.more rest ((gap.join probe) text attempts).2 := by
  rw [more.eq_1]
  rcases reached : (gap.join probe) text attempts with ⟨result, after⟩
  rw [reached] at fits
  cases fits
  exact if_pos shorter

theorem more_of_refuses {attempts : Attempts}
    (refuses : ((gap.join probe) text attempts).1 = none) :
    (probe.more text attempts).1 = text := by
  rw [more.eq_1]
  rcases reached : (gap.join probe) text attempts with ⟨result, after⟩
  rw [reached] at refuses
  cases refuses
  rfl

theorem fits_further (here : Fits (gap.join probe) text middle)
    (shorter : middle.length < text.length) (later : Fits (further probe) middle rest) :
    Fits (further probe) text rest := by
  intro attempts
  change some (more probe text attempts).1 = some rest
  rw [more_of_fits (here attempts) shorter]
  exact later _

theorem fits_further_none (refuses : Refuses (gap.join probe) text) :
    Fits (further probe) text text := fun attempts =>
  congrArg some (more_of_refuses (refuses attempts))

/-! ## What a walk misses -/

/-- On its way through a text a probe misses something where less than some length is left. -/
def MissesBelow (limit : Nat) (probe : Probe) (text : List Char) : Prop :=
  ∀ attempts, (probe text attempts).2.mark < limit

/-- A symbol that does not fit is missed. -/
theorem misses_symbol (refuses : Refuses probe text) (inside : text.length < limit) :
    MissesBelow limit (.symbol symbol probe) text := by
  intro attempts
  rw [symbol_of_refuses (refuses attempts), Attempts.miss_mark]
  omega

theorem misses_inside (misses : MissesBelow limit probe text) :
    MissesBelow limit (.symbol symbol probe) text := by
  intro attempts
  have misses := misses attempts
  cases reached : (probe text attempts).1 with
  | none =>
    rw [symbol_of_refuses reached, Attempts.miss_mark]
    omega
  | some left => rwa [symbol_of_fits reached]

theorem misses_front (misses : MissesBelow limit first text) (orderly : Orderly second) :
    MissesBelow limit (first.join second) text := by
  intro attempts
  have misses := misses attempts
  cases reached : (first text attempts).1 with
  | none => rwa [join_of_refuses reached]
  | some middle =>
    rw [join_of_fits reached]
    exact Nat.lt_of_le_of_lt (orderly.sinks middle _) misses

theorem misses_behind (front : Fits first text middle) (misses : MissesBelow limit second middle) :
    MissesBelow limit (first.join second) text := by
  intro attempts
  rw [join_of_fits (front attempts)]
  exact misses _

theorem misses_first (misses : MissesBelow limit probe text)
    (orderly : ∀ probe ∈ probes, Orderly probe) :
    MissesBelow limit (sequence (probe :: probes)) text := by
  cases probes with
  | nil => exact misses
  | cons next probes =>
    exact misses_front misses (orderly_join orderly_gap (orderly_sequence orderly))

theorem misses_later (front : Fits probe text middle)
    (skips : Lexeme.dropGap false middle = start)
    (misses : MissesBelow limit (sequence (next :: probes)) start) :
    MissesBelow limit (sequence (probe :: next :: probes)) text :=
  misses_behind front (misses_behind (fits_gap middle) (skips ▸ misses))

theorem misses_choice (misses : MissesBelow limit probe text)
    (orderly : ∀ probe ∈ probes, Orderly probe) :
    MissesBelow limit (choice (probe :: probes)) text := by
  intro attempts
  have misses := misses attempts
  cases reached : (probe text attempts).1 with
  | none =>
    rw [choice_of_refuses reached]
    exact Nat.lt_of_le_of_lt ((orderly_choice orderly).sinks text _) misses
  | some left => rwa [choice_of_fits reached]

theorem misses_choice_later (refuses : Refuses probe text)
    (misses : MissesBelow limit (choice probes) text) :
    MissesBelow limit (choice (probe :: probes)) text := by
  intro attempts
  rw [choice_of_refuses (refuses attempts)]
  exact misses _

theorem misses_optional (misses : MissesBelow limit probe text) :
    MissesBelow limit (optional probe) text :=
  misses_choice misses (by simp [Draft.silent_pure])

theorem misses_many1 (misses : MissesBelow limit probe text) (orderly : Orderly probe) :
    MissesBelow limit (many1 probe) text := by
  rw [many1_eq_join]
  exact misses_front misses (orderly_further orderly)

/-- A probe that takes something where it fits. -/
def Advances (probe : Probe) : Prop :=
  ∀ text attempts rest, (probe text attempts).1 = some rest → rest.length < text.length

theorem advances_char (c : Char) : Advances (plain (Reader.char c)) := by
  intro text attempts rest walked
  obtain ⟨⟨value, left⟩, read, rfl⟩ := Option.map_eq_some_iff.mp walked
  unfold Reader.char at read
  split at read
  · cases read
  · split at read
    · cases read
      exact Nat.lt_succ_self _
    · cases read

theorem advances_symbol (advances : Advances probe) : Advances (.symbol symbol probe) := by
  intro text attempts rest walked
  cases reached : (probe text attempts).1 with
  | none =>
    rw [symbol_of_refuses reached] at walked
    cases walked
  | some left =>
    rw [symbol_of_fits reached] at walked
    cases walked
    exact advances text attempts rest reached

theorem advances_join (front : Advances first) (behind : Orderly second) :
    Advances (first.join second) := by
  intro text attempts rest walked
  cases reached : (first text attempts).1 with
  | none =>
    rw [join_of_refuses reached] at walked
    cases walked
  | some middle =>
    rw [join_of_fits reached] at walked
    exact Nat.lt_of_le_of_lt (behind.within middle _ rest walked)
      (front text attempts middle reached)

theorem advances_behind (front : Orderly first) (behind : Advances second) :
    Advances (first.join second) := by
  intro text attempts rest walked
  cases reached : (first text attempts).1 with
  | none =>
    rw [join_of_refuses reached] at walked
    cases walked
  | some middle =>
    rw [join_of_fits reached] at walked
    exact Nat.lt_of_lt_of_le (behind middle _ rest walked)
      (front.within text attempts middle reached)

theorem advances_exactly {word : String} (some' : word.toList ≠ []) :
    Advances (plain (Reader.exactly word)) := by
  intro text attempts rest walked
  obtain ⟨⟨value, left⟩, read, rfl⟩ := Option.map_eq_some_iff.mp walked
  obtain ⟨behind, found, same⟩ := Option.map_eq_some_iff.mp read
  cases same
  have positive := List.length_pos_iff.mpr some'
  have whole := congrArg List.length (List.isPrefixOf?_eq_some_iff_append_eq.mp found)
  rw [List.length_append] at whole
  exact whole ▸ Nat.lt_add_of_pos_left positive

theorem advances_sequence (front : Advances probe) (behind : ∀ probe ∈ probes, Orderly probe) :
    Advances (sequence (probe :: probes)) := by
  cases probes with
  | nil => exact front
  | cons next rest => exact advances_join front (orderly_join orderly_gap (orderly_sequence behind))

theorem advances_choice (each : ∀ probe ∈ probes, Advances probe) : Advances (choice probes) := by
  induction probes with
  | nil => rintro text attempts rest ⟨⟩
  | cons probe probes ih =>
    obtain ⟨here, later⟩ := List.forall_mem_cons.mp each
    intro text attempts rest walked
    cases reached : (probe text attempts).1 with
    | none =>
      rw [choice_of_refuses reached] at walked
      exact ih later text _ rest walked
    | some middle =>
      rw [choice_of_fits reached] at walked
      cases walked
      exact here text attempts rest reached

/-- A repetition ends where its symbol is missed. -/
theorem misses_many (advances : Advances probe) (inside : text.length < limit) :
    MissesBelow limit (many (.symbol symbol probe)) text := by
  have advances : Advances (.symbol symbol probe) := advances_symbol advances
  have missed : ∀ text attempts, (Probe.symbol symbol probe text attempts).1 = none →
      (Probe.symbol symbol probe text attempts).2.mark ≤ text.length := by
    intro text attempts refused
    cases reached : (probe text attempts).1 with
    | none =>
      rw [symbol_of_refuses reached, Attempts.miss_mark]
      exact Nat.min_le_right _ _
    | some left =>
      rw [symbol_of_fits reached] at refused
      cases refused
  have ended : ∀ text attempts,
      ((Probe.symbol symbol probe).more text attempts).2.mark ≤ text.length := by
    intro text attempts
    have shorter := (Draft.dropGap_suffix false text).length_le
    fun_induction more (.symbol symbol probe) text attempts with
    | case1 text attempts rest after reached closer ih =>
      have later := ih (Draft.dropGap_suffix false rest).length_le
      omega
    | case2 text attempts rest after reached short =>
      have closer : rest.length < (Lexeme.dropGap false text).length :=
        advances _ attempts rest (congrArg Prod.fst reached)
      omega
    | case3 text attempts after reached =>
      have here := missed _ attempts (congrArg Prod.fst reached)
      rw [show Probe.symbol symbol probe (Lexeme.dropGap false text) attempts = _ from reached]
        at here
      exact Nat.le_trans here shorter
  refine misses_optional ?_
  rw [many1_eq_join]
  intro attempts
  cases reached : (Probe.symbol symbol probe text attempts).1 with
  | none =>
    rw [join_of_refuses reached]
    exact Nat.lt_of_le_of_lt (missed text attempts reached) inside
  | some rest =>
    have closer := advances text attempts rest reached
    rw [join_of_fits reached]
    exact Nat.lt_of_le_of_lt (ended rest _) (by omega)

end Probe

namespace Expectation

open Probe

@[simp] theorem orderly_word (symbol : GrammarSymbol) (table : String → Bool) :
    Orderly (word symbol table) :=
  orderly_symbol (orderly_plain (Draft.silent_mapped (Draft.silent_takeWhile _) _))

@[simp] theorem orderly_punctuation (c : Char) : Orderly (punctuation c) :=
  orderly_plain (Draft.silent_char c)

@[simp] theorem orderly_keyword (text : String) : Orderly (keyword text) :=
  orderly_plain (Draft.silent_exactly text)

@[simp] theorem orderly_spelling : Orderly spelling :=
  orderly_symbol (orderly_plain Draft.silent_spelling)

@[simp] theorem orderly_localName : Orderly localName := by simp [localName]

@[simp] theorem orderly_globalName : Orderly globalName := by simp [globalName]

@[simp] theorem orderly_blockLabel : Orderly blockLabel := by simp [blockLabel]

@[simp] theorem orderly_type : Orderly type := by simp [type, void]

private theorem silent_whole : Draft.Silent whole :=
  Draft.silent_bind (Draft.meets_orElse (Draft.silent_kept '-') (Draft.silent_pure [])) fun _ =>
    Draft.silent_takeWhile1 Char.isDigit

@[simp] theorem orderly_decimal : Orderly decimal :=
  orderly_symbol (orderly_plain (Draft.silent_bind silent_whole fun _ => Draft.silent_fraction))

@[simp] theorem orderly_integer : Orderly integer := orderly_symbol (orderly_plain silent_whole)

@[simp] theorem orderly_operand : Orderly operand := by simp [operand, truth]

@[simp] theorem orderly_constant : Orderly constant := by simp [constant, truth]

@[simp] theorem orderly_row {member : Probe} (orderly : Orderly member) : Orderly (row member) := by
  have another : Orderly (sequence [comma, member]) := orderly_sequence (by simp [comma, orderly])
  exact orderly_sequence (by simp [orderly, another])

@[simp] theorem orderly_arith : Orderly arith :=
  orderly_symbol (orderly_sequence (by simp [equals, comma, arithOp]))

@[simp] theorem orderly_compare : Orderly compare :=
  orderly_symbol (orderly_sequence (by simp [equals, comma, compareKind, predicate]))

@[simp] theorem orderly_convert : Orderly convert :=
  orderly_symbol (orderly_sequence (by simp [equals, convertOp]))

@[simp] theorem orderly_load : Orderly load :=
  orderly_symbol (orderly_sequence (by simp [equals, comma]))

@[simp] theorem orderly_elementPtr : Orderly elementPtr :=
  orderly_symbol (orderly_sequence (by simp [equals, comma]))

@[simp] theorem orderly_argument : Orderly argument := orderly_symbol (orderly_sequence (by simp))

@[simp] theorem orderly_definedCall : Orderly definedCall :=
  orderly_symbol (orderly_sequence (by simp [equals]))

@[simp] theorem orderly_call : Orderly call := orderly_symbol (orderly_sequence (by simp))

@[simp] theorem orderly_store : Orderly store :=
  orderly_symbol (orderly_sequence (by simp [comma]))

@[simp] theorem orderly_phiSource : Orderly phiSource :=
  orderly_symbol (orderly_sequence (by simp [comma]))

@[simp] theorem orderly_phi : Orderly phi := orderly_symbol (orderly_sequence (by simp [equals]))

@[simp] theorem orderly_jump : Orderly jump := orderly_symbol (orderly_sequence (by simp))

@[simp] theorem orderly_branch : Orderly branch :=
  orderly_symbol (orderly_sequence (by simp [comma]))

@[simp] theorem orderly_ret : Orderly ret := by
  have value : Orderly (sequence [type, operand]) := orderly_sequence (by simp)
  exact orderly_symbol (orderly_sequence (by simp [void, value]))

@[simp] theorem orderly_instr : Orderly instr := orderly_symbol (orderly_choice (by simp))

@[simp] theorem orderly_terminator : Orderly terminator :=
  orderly_symbol (orderly_choice (by simp))

@[simp] theorem orderly_block : Orderly block := orderly_symbol (orderly_sequence (by simp))

@[simp] theorem orderly_param : Orderly param := orderly_symbol (orderly_sequence (by simp))

@[simp] theorem orderly_function : Orderly function := orderly_symbol (orderly_sequence (by simp))

@[simp] theorem orderly_external : Orderly external := orderly_symbol (orderly_keyword "external")

@[simp] theorem orderly_global : Orderly global :=
  orderly_symbol (orderly_sequence (by simp [equals]))

@[simp] theorem orderly_ending : Orderly ending := orderly_symbol (orderly_plain Draft.silent_ending)

end Expectation

end KernelGuard
