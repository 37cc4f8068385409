import KernelGuard.Proofs.AlikeTexts
import KernelGuard.Proofs.FirstFault
import KernelGuard.Proofs.PrintedHead

/-! Texts with whole lines of comments in front. A draft counts its places from the end of
the text and begins with a gap, so the lines in front do not show in it. A walk along the
grammar that gets anywhere misses what it would have missed without them. So a text is read
as before, and what is wrong with it is found as many lines further down. -/
namespace KernelGuard

open Reader Lexeme

/-! ## Moving down -/

/-- The place some lines further down. -/
def Position.movedDown (lines : Nat) (position : Position) : Position :=
  ⟨position.line + lines, position.column⟩

def Misfit.movedDown (lines : Nat) (misfit : Misfit) : Misfit :=
  { misfit with position := misfit.position.movedDown lines }

/-- The same fault some lines further down, if it has a place. -/
def Fault.movedDown (lines : Nat) : Fault → Fault
  | grammar misfit => .grammar (misfit.movedDown lines)
  | complaint position cause => .complaint (position.movedDown lines) cause
  | fault => fault

/-- Nothing or whole lines. -/
def WholeLines (text : List Char) : Prop := ∀ c ∈ text.getLast?, c = '\n'

variable {front text : List Char}

/-- What stands in front of the line of a place does not matter to it. -/
private theorem takeWhile_back (whole : WholeLines front) (before : List Char) :
    (front ++ before).reverse.takeWhile (· ≠ '\n') = before.reverse.takeWhile (· ≠ '\n') := by
  have ended : front.reverse.takeWhile (· ≠ '\n') = [] := by
    cases back : front.reverse with
    | nil => rfl
    | cons c rest =>
      have last : c = '\n' := whole c (by rw [← List.head?_reverse, back]; rfl)
      simp [last]
  rw [List.reverse_append, List.takeWhile_append, ended, List.append_nil]
  split
  · rename_i all
    exact ((List.takeWhile_prefix _).eq_of_length all).symm
  · rfl

theorem Position.behind_wholeLines (whole : WholeLines front) (before : List Char) :
    Position.behind (front ++ before) = (Position.behind before).movedDown (front.count '\n') := by
  simp only [behind, takeWhile_back whole, List.count_append, movedDown]
  congr 1
  omega

theorem Position.ofMark_wholeLines (whole : WholeLines front) {mark : Nat}
    (inside : mark ≤ text.length) :
    Position.ofMark (front ++ text) mark = (Position.ofMark text mark).movedDown (front.count '\n') := by
  have taken : (front ++ text).take ((front ++ text).length - mark) =
      front ++ text.take (text.length - mark) := by
    rw [List.length_append, Nat.add_sub_assoc inside, List.take_length_add_append]
  rw [ofMark, ofMark, taken, behind_wholeLines whole]

/-! ## The draft -/

namespace Draft

/-- A reader that begins with a gap. -/
def Opens {α : Type} (reader : Reader α) : Prop := ∀ text, reader (dropGap false text) = reader text

theorem opens_gap {α : Type} (next : Unit → Reader α) : Opens (gap >>= next) := by
  intro text
  have same : gap (dropGap false text) = gap text := by
    rw [gap, gap, dropGap_twice]
  change Reader.bind gap next _ = Reader.bind gap next _
  rw [Reader.bind, Reader.bind, same]

theorem opens_bind {α β : Type} {first : Reader α} (opens : Opens first) (next : α → Reader β) :
    Opens (first >>= next) := by
  intro text
  change Reader.bind first next _ = Reader.bind first next _
  rw [Reader.bind, Reader.bind, opens text]

theorem opens_item : Opens item := by
  have global : Opens globalItem := opens_bind (opens_bind (opens_bind (opens_gap _) _) _) _
  have function : Opens functionItem := opens_bind (opens_bind (opens_gap _) _) _
  intro text
  simp only [item, Reader.orElse, global text, function text]

/-- What closes a text, behind its items. -/
private def closing (items : List Item) : Reader Draft := do
  gap
  ending
  return items

private theorem closing_refuses {items : List Item} (some' : dropGap false text ≠ []) :
    closing items text = none := by
  obtain ⟨c, rest, left⟩ := List.exists_cons_of_ne_nil some'
  have gone : gap text = some ((), c :: rest) := by rw [gap, left]
  rw [closing, bind_reads gone]
  rfl

/-- The gap in front of a text does not show in its draft. -/
theorem ofText_dropGap (text : List Char) : ofText? (dropGap false text) = ofText? text := by
  have whole_eq : ∀ text, whole text = closing (item.rowFrom text).1 (item.rowFrom text).2 :=
    fun _ => rfl
  suffices same : whole (dropGap false text) = whole text by
    rw [ofText?, ofText?, same]
  have shorter := (dropGap_suffix false text).length_le
  have read' : item (dropGap false text) = item text := opens_item text
  rw [whole_eq, whole_eq, rowFrom, rowFrom.eq_1 item text, read']
  cases read : item text with
  | none => exact opens_gap _ text
  | some result =>
    obtain ⟨found, rest⟩ := result
    rw [read] at read'
    by_cases further : rest.length < (dropGap false text).length
    · simp only [if_pos further, if_pos (Nat.lt_of_lt_of_le further shorter)]
    · -- No item takes nothing; as it is, both texts would be refused.
      obtain ⟨met, -, passed⟩ := meets_item _ _ _ _ (List.suffix_refl _) read'
      obtain rfl : rest = dropGap false text :=
        passed.suffix.eq_of_length_le (Nat.le_of_not_lt further)
      have some' : dropGap false text ≠ [] := by
        intro none
        rw [none] at read'
        cases read'
      have refused : ∀ (items : List Item) (text' : List Char),
          dropGap false text' = dropGap false text → closing items text' = none :=
        fun items text' same => closing_refuses (same ▸ some')
      dsimp only
      rw [if_neg further, refused _ _ (dropGap_twice text)]
      split
      · rw [rowFrom, read']
        dsimp only
        rw [if_neg further]
        exact (refused _ _ (dropGap_twice text)).symm
      · exact (refused _ _ rfl).symm

end Draft

/-! ## The misfit -/

namespace Expectation

open Probe

/-- The grammar behind the gap that a text may begin with. -/
def contents : Probe := sequence [many (choice [global, function]), ending]

private theorem orderly_contents : Orderly contents := orderly_sequence (by simp)

/-- A walk that misses something on its way misses the same behind any gap. -/
private theorem missed_behind {other : List Char} (skips : dropGap false other = text)
    (misses : MissesBelow text.length contents text) :
    (program other ⟨other.length, []⟩).2 = (contents text ⟨text.length, []⟩).2 := by
  have shorter : text.length ≤ other.length := skips ▸ (Draft.dropGap_suffix false other).length_le
  have walked : (gap.join contents) other ⟨other.length, []⟩ = contents text ⟨other.length, []⟩ := by
    rw [join_of_fits (fits_gap other _), skips]
    rfl
  have past := misses ⟨other.length, []⟩
  have alike := (orderly_contents.alike text.length text ⟨other.length, []⟩ ⟨text.length, []⟩
    (Nat.le_refl _) (.inr ⟨rfl, rfl, shorter, Nat.le_refl _⟩)).2
  rw [← alike.same past, ← walked]
  change (Probe.symbol .program (gap.join contents) other ⟨other.length, []⟩).2 = _
  cases reached : ((gap.join contents) other ⟨other.length, []⟩).1 with
  | some rest => rw [symbol_of_fits reached]
  | none =>
    rw [symbol_of_refuses reached]
    refine Attempts.miss_behind ?_ _ _
    rw [walked]
    omega

private theorem shownLine_wholeLines (whole : WholeLines front) (before after : List Char) :
    shownLine (front ++ before) after = shownLine before after := by
  have line : lineAround (front ++ before) after = lineAround before after := by
    rw [lineAround, lineAround, takeWhile_back whole]
  rw [shownLine, shownLine, line]

/-- What does not fit is the same some lines further down. -/
theorem misfit_wholeLines (whole : WholeLines front) (solid : Solid text)
    (skips : dropGap false (front ++ text) = text)
    (misses : MissesBelow text.length contents text) :
    misfit (front ++ text) = (misfit text).movedDown (front.count '\n') := by
  have shown : ∀ text, misfit text =
      let attempts := (program text ⟨text.length, []⟩).2
      ⟨.ofMark text attempts.mark, shownLine (text.take (text.length - attempts.mark))
        (text.drop (text.length - attempts.mark)), attempts.listed⟩ := fun _ => rfl
  rw [shown, shown, missed_behind skips misses, missed_behind (dropGap_solid solid) misses]
  have inside := Nat.le_of_lt (misses ⟨text.length, []⟩)
  generalize (contents text ⟨text.length, []⟩).2 = attempts at inside
  simp only [Misfit.movedDown, Position.ofMark_wholeLines whole inside, List.length_append,
    Nat.add_sub_assoc inside, List.take_length_add_append, List.drop_length_add_append,
    shownLine_wholeLines whole]

end Expectation

/-! ## Reading a program -/

/-- What is wrong with the meaning of a draft has its place in the text. -/
theorem Draft.offence_inside {draft : Draft} {offence : Offence} (fits : ofText? text = some draft)
    (meant : draft.meaning = .error offence) : offence.mark ≤ text.length := by
  obtain ⟨before, entry, after, listed, -, offends⟩ := meaning_eq_error_iff.mp meant
  have inside : ∀ site ∈ entry.sites, site.mark ≤ text.length := by
    intro site member
    obtain ⟨front, rest, whole, length, -⟩ := (sites_ofText? fits).1 site
      (List.mem_flatMap.mpr ⟨entry, by simp [listed], member⟩)
    rw [whole, List.length_append, ← length]
    exact Nat.le_add_left _ _
  cases offends with
  | operand first =>
    obtain ⟨earlier, pair, later, among, -, complaint, -, rfl⟩ := first
    have site : Site.operand pair.2 ∈ entry.sites := by
      have member : Site.operand pair.2 ∈ operandSites entry.operands :=
        List.mem_map.mpr ⟨pair, by simp [among], rfl⟩
      cases entry with
      | initial type operand => exact member
      | phi found | instr found | terminator found => exact List.mem_cons_of_mem _ member
    exact inside _ site
  | @illTyped made makes ill =>
    cases entry with
    | initial type operand => cases makes
    | phi found =>
      obtain ⟨meaning, -, rfl⟩ := Option.map_eq_some_iff.mp makes
      exact inside (.phi found) List.mem_cons_self
    | instr found =>
      obtain ⟨meaning, -, rfl⟩ := Option.map_eq_some_iff.mp makes
      exact inside (.instr found) List.mem_cons_self
    | terminator found =>
      obtain ⟨meaning, -, rfl⟩ := Option.map_eq_some_iff.mp makes
      exact inside (.terminator found) List.mem_cons_self

/-- Whole lines of blanks and comments in front of a text move its faults down. -/
theorem Module.ofText_wholeLines {front text : String} (whole : WholeLines front.toList)
    (solid : Solid text.toList) (gap : Gap text.toList front.toList)
    (misses : Probe.MissesBelow text.toList.length Expectation.contents text.toList) :
    ofText (front ++ text) =
      (ofText text).mapError (Fault.movedDown (front.toList.count '\n')) := by
  have skips : dropGap false (front.toList ++ text.toList) = text.toList :=
    gap.dropGap_append.trans (dropGap_solid solid)
  have drafted : Draft.ofText? (front.toList ++ text.toList) = Draft.ofText? text.toList := by
    rw [← Draft.ofText_dropGap, skips]
  unfold ofText
  rw [String.toList_append, drafted, Expectation.misfit_wholeLines whole solid skips misses]
  cases fits : Draft.ofText? text.toList with
  | none => rfl
  | some draft =>
    dsimp only
    cases meant : draft.meaning with
    | ok module => rfl
    | error offence =>
      simp only [Position.ofMark_wholeLines whole (Draft.offence_inside fits meant)]
      rfl

/-- Faults in the links between blocks have no place. -/
private theorem linking_unmoved (lines : Nat) (module : Module) :
    (Program.ofModule module).mapError (Fault.movedDown lines) = Program.ofModule module := by
  cases linked : Program.ofModule module with
  | ok program => rfl
  | error fault =>
    obtain ⟨before, linkage, after, -, -, faulty⟩ := Program.ofModule_eq_error_iff.mp linked
    cases faulty <;> rfl

theorem Program.ofText_wholeLines {front text : String} (whole : WholeLines front.toList)
    (solid : Solid text.toList) (gap : Gap text.toList front.toList)
    (misses : Probe.MissesBelow text.toList.length Expectation.contents text.toList) :
    ofText (front ++ text) =
      (ofText text).mapError (Fault.movedDown (front.toList.count '\n')) := by
  unfold ofText
  rw [Module.ofText_wholeLines whole solid gap misses]
  cases Module.ofText text with
  | error fault => rfl
  | ok module => exact (linking_unmoved _ module).symm

end KernelGuard
