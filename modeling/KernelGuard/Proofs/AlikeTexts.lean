import KernelGuard.Proofs.WrittenPlaces

/-! Texts that differ in their gaps alone. Two such texts are alike: they have the same
visible characters and gaps at the same places, whatever the gaps hold. Every reader of the
grammar gives the same on both, places aside, and leaves texts that are alike again. -/
namespace KernelGuard

open Reader

namespace Lexeme

/-- Two texts with the same visible characters and with gaps at the same places. -/
inductive Alike : List Char → List Char → Prop
  | done : Alike [] []
  | visible (solid : isSolid c = true) (rest : Alike text other) : Alike (c :: text) (c :: other)
  | gap (opens : ¬Solid text) (opens' : ¬Solid other)
      (behind : Alike (dropGap false text) (dropGap false other)) : Alike text other

/-- Where a text stands: in a token, or in a gap and there between comments or in one. -/
inductive Standing where
  | token
  | blanks
  | comment
deriving DecidableEq

namespace Standing

/-- Where a text stands one character later. -/
def past : Standing → Char → Standing
  | comment, c => if c = '\n' then blanks else comment
  | _, c => if isSolid c then token else if c = ';' then comment else blanks

/-- What is left of a text behind the rest of the gap that it stands in. -/
def left : Standing → List Char → List Char
  | token, text => text
  | blanks, text => dropGap false text
  | comment, text => dropGap true text

/-- Where a text stands behind some part of it. -/
def behind (standing : Standing) (text : List Char) : Standing := text.foldl past standing

end Standing

/-- Any number of blanks and comments. A comment ends with its line, or with the text if
nothing comes behind. -/
inductive Gap (after : List Char) : List Char → Prop
  | nothing : Gap after []
  | blank (blank : isBlank c = true) (rest : Gap after run) : Gap after (c :: run)
  | comment (line : ∀ c ∈ words, c ≠ '\n') (rest : Gap after run) :
      Gap after (';' :: words ++ '\n' :: run)
  | lastComment (line : ∀ c ∈ words, c ≠ '\n') (ends : after = []) : Gap after (';' :: words)

/-- A text with one blank for each gap behind a token. -/
def oneLineFrom (standing : Standing) : List Char → List Char
  | [] => []
  | c :: rest =>
    let next := standing.past c
    if next = .token then c :: oneLineFrom next rest
    else if standing = .token then ' ' :: oneLineFrom next rest
    else oneLineFrom next rest

/-- A text on one line. -/
def oneLine (text : List Char) : List Char := oneLineFrom .token text

/-- A text with a carriage return in front of every line feed. -/
def returned (text : List Char) : List Char :=
  text.flatMap fun c => if c = '\n' then ['\r', '\n'] else [c]

/-! ## Standing in a gap -/

namespace Standing

theorem past_eq_token_iff {standing : Standing} {c : Char} :
    standing.past c = token ↔ standing ≠ comment ∧ isSolid c = true := by
  cases standing <;> simp only [past] <;> split <;> simp_all <;> split <;> simp

theorem left_visible {standing : Standing} {c : Char} (visible : standing.past c = token)
    (rest : List Char) : standing.left (c :: rest) = c :: rest := by
  obtain ⟨outside, solid⟩ := past_eq_token_iff.mp visible
  cases standing with
  | token => rfl
  | blanks => exact dropGap_solid (solid_cons solid rest)
  | comment => exact absurd rfl outside

/-- A gap goes on with a character that is no part of a token. -/
theorem left_hidden {standing : Standing} {c : Char} (inGap : standing ≠ token)
    (hidden : standing.past c ≠ token) (rest : List Char) :
    standing.left (c :: rest) = (standing.past c).left rest := by
  cases standing with
  | token => exact absurd rfl inGap
  | blanks =>
    have other : isSolid c = false := by simpa [past_eq_token_iff] using hidden
    by_cases semicolon : c = ';'
    · subst semicolon
      rfl
    · have blank : isBlank c = true := by simpa [isSolid, semicolon] using other
      simp [left, past, dropGap, other, blank, semicolon]
  | comment =>
    by_cases line : c = '\n'
    · subst line
      rfl
    · simp [left, past, dropGap, line]

end Standing

theorem not_solid {c : Char} {rest : List Char} (hidden : isSolid c = false) :
    ¬Solid (c :: rest) := by
  simp [Solid, hidden]

/-- A gap that is there takes something. -/
theorem dropGap_shorter {text : List Char} (opens : ¬Solid text) :
    (dropGap false text).length < text.length := by
  cases text with
  | nil => exact absurd (by simp [Solid]) opens
  | cons c rest =>
    have hidden : Standing.blanks.past c ≠ .token := by
      simpa [Standing.past_eq_token_iff, Solid] using opens
    have skipped := Standing.left_hidden (by decide) hidden rest
    change dropGap false (c :: rest) = _ at skipped
    rw [skipped]
    apply Nat.lt_succ_of_le
    cases Standing.blanks.past c with
    | token => exact Nat.le_refl _
    | blanks => exact (Draft.dropGap_suffix false rest).length_le
    | comment => exact (Draft.dropGap_suffix true rest).length_le

/-! ## Texts that are alike -/

theorem alike_hidden {c d : Char} {text other : List Char}
    (hidden : Standing.token.past c ≠ .token) (hidden' : Standing.token.past d ≠ .token)
    (behind : Alike ((Standing.token.past c).left text) ((Standing.token.past d).left other)) :
    Alike (c :: text) (d :: other) := by
  refine .gap (not_solid ?_) (not_solid ?_) ?_
  · simpa [Standing.past_eq_token_iff] using hidden
  · simpa [Standing.past_eq_token_iff] using hidden'
  · have inGap : Standing.blanks ≠ .token := by decide
    have first := Standing.left_hidden inGap hidden text
    have second := Standing.left_hidden inGap hidden' other
    change Alike (Standing.blanks.left (c :: text)) (Standing.blanks.left (d :: other))
    rw [first, second]
    exact behind

/-- Texts that begin with the same character are alike if they are alike behind it. -/
theorem alike_cons {standing : Standing} {text other : List Char} (c : Char)
    (behind : Alike ((standing.past c).left text) ((standing.past c).left other)) :
    Alike (standing.left (c :: text)) (standing.left (c :: other)) := by
  by_cases visible : standing.past c = .token
  · rw [Standing.left_visible visible, Standing.left_visible visible]
    rw [visible] at behind
    exact .visible (Standing.past_eq_token_iff.mp visible).2 behind
  · by_cases inToken : standing = .token
    · subst inToken
      exact alike_hidden visible visible behind
    · rw [Standing.left_hidden inToken visible, Standing.left_hidden inToken visible]
      exact behind

theorem alike_append (standing : Standing) {text other : List Char} (front : List Char)
    (behind : Alike ((standing.behind front).left text) ((standing.behind front).left other)) :
    Alike (standing.left (front ++ text)) (standing.left (front ++ other)) := by
  induction front generalizing standing with
  | nil => exact behind
  | cons c front ih => exact alike_cons c (ih _ behind)

theorem alike_refl (text : List Char) : Alike text text := by
  have nothing : Alike ((Standing.token.behind text).left [])
      ((Standing.token.behind text).left []) := by
    cases Standing.token.behind text <;> exact .done
  simpa [Standing.left] using alike_append .token text nothing

/-- Behind a gap a text goes on as if the gap were not there. -/
theorem Gap.dropGap_append {after run : List Char} (gap : Gap after run) :
    dropGap false (run ++ after) = dropGap false after := by
  have skipped : ∀ (words : List Char) (rest : List Char), (∀ c ∈ words, c ≠ '\n') →
      dropGap true (words ++ rest) = dropGap true rest := by
    intro words rest line
    induction words with
    | nil => rfl
    | cons c words ih =>
      obtain ⟨other, line⟩ := List.forall_mem_cons.mp line
      simpa [dropGap, other] using ih line
  induction gap with
  | nothing => rfl
  | blank blank rest ih => simpa [dropGap, blank] using ih
  | @comment words run line rest ih =>
    change dropGap true (words ++ '\n' :: run ++ after) = _
    rw [List.append_assoc, skipped words _ line]
    exact ih
  | @lastComment words line ends =>
    subst ends
    change dropGap true (words ++ []) = _
    rw [skipped words [] line]
    rfl

theorem Gap.opens {after run : List Char} (gap : Gap after run) (nonempty : run ≠ []) :
    ¬Solid (run ++ after) := by
  cases gap with
  | nothing => exact absurd rfl nonempty
  | blank blank rest => exact not_solid (by simp [isSolid, blank])
  | comment line rest => exact not_solid (by decide)
  | lastComment line ends => exact not_solid (by decide)

/-- Outside of comments a gap may be replaced by another one. -/
theorem alike_of_gaps {before after run other : List Char}
    (outside : Standing.token.behind before ≠ .comment) (gap : Gap after run)
    (nonempty : run ≠ []) (gap' : Gap after other) (nonempty' : other ≠ []) :
    Alike (before ++ run ++ after) (before ++ other ++ after) := by
  have behind : Alike (dropGap false (run ++ after)) (dropGap false (other ++ after)) := by
    rw [gap.dropGap_append, gap'.dropGap_append]
    exact alike_refl _
  rw [List.append_assoc, List.append_assoc]
  apply alike_append .token before
  cases stands : Standing.token.behind before with
  | token => exact .gap (gap.opens nonempty) (gap'.opens nonempty') behind
  | blanks => exact behind
  | comment => exact absurd stands outside

private theorem solid_oneLineFrom {standing : Standing} (inGap : standing ≠ .token)
    (text : List Char) : Solid (oneLineFrom standing text) := by
  induction text generalizing standing with
  | nil => simp [oneLineFrom, Solid]
  | cons c rest ih =>
    by_cases visible : standing.past c = .token
    · simp only [oneLineFrom, visible, if_true]
      exact solid_cons (Standing.past_eq_token_iff.mp visible).2 _
    · simp only [oneLineFrom, visible, inGap, if_false]
      exact ih visible

theorem alike_oneLine (text : List Char) : Alike text (oneLine text) := by
  suffices general : ∀ standing : Standing,
      Alike (standing.left text) (oneLineFrom standing text) from general .token
  induction text with
  | nil =>
    intro standing
    cases standing <;> exact .done
  | cons c rest ih =>
    intro standing
    have behind := ih (standing.past c)
    by_cases visible : standing.past c = .token
    · rw [visible] at behind
      simp only [oneLineFrom, visible, if_true, Standing.left_visible visible]
      exact .visible (Standing.past_eq_token_iff.mp visible).2 behind
    · by_cases inToken : standing = .token
      · subst inToken
        simp only [oneLineFrom, visible, if_true, if_false]
        refine alike_hidden visible (by decide) ?_
        change Alike _ (dropGap false _)
        rwa [dropGap_solid (solid_oneLineFrom visible rest)]
      · simp only [oneLineFrom, visible, inToken, if_false, Standing.left_hidden inToken visible]
        exact behind

theorem oneLine_is_line (text : List Char) : ∀ c ∈ oneLine text, c ≠ '\n' := by
  suffices general : ∀ standing, ∀ c ∈ oneLineFrom standing text, c ≠ '\n' from general .token
  induction text with
  | nil => simp [oneLineFrom]
  | cons d rest ih =>
    intro standing
    have later := ih (standing.past d)
    by_cases visible : standing.past d = .token
    · have solid := (Standing.past_eq_token_iff.mp visible).2
      simp only [oneLineFrom, visible, if_true]
      refine List.forall_mem_cons.mpr ⟨?_, visible ▸ later⟩
      rintro rfl
      exact absurd solid (by decide)
    · by_cases inToken : standing = .token
      · subst inToken
        simp only [oneLineFrom, visible, if_true, if_false]
        exact List.forall_mem_cons.mpr ⟨by decide, later⟩
      · simpa only [oneLineFrom, visible, inToken, if_false] using later

theorem alike_returned (text : List Char) : Alike text (returned text) := by
  suffices general : ∀ standing : Standing,
      Alike (standing.left text) (standing.left (returned text)) from general .token
  induction text with
  | nil =>
    intro standing
    cases standing <;> exact .done
  | cons c rest ih =>
    intro standing
    by_cases line : c = '\n'
    · subst line
      change Alike _ (standing.left ('\r' :: '\n' :: returned rest))
      cases standing with
      | token => exact alike_hidden (by decide) (by decide) (ih .blanks)
      | blanks => exact ih .blanks
      | comment => exact ih .blanks
    · have kept : returned (c :: rest) = c :: returned rest := by simp [returned, line]
      rw [kept]
      exact alike_cons c (ih _)

/-! ## Readers on texts that are alike -/

/-- What is left of two texts that are alike: texts that are alike again, and both shorter
or neither. -/
structure Level (text other rest rest' : List Char) : Prop where
  alike : Alike rest rest'
  within : rest.length ≤ text.length
  within' : rest'.length ≤ other.length
  moved : rest.length < text.length ↔ rest'.length < other.length

theorem Level.still {text other : List Char} (alike : Alike text other) :
    Level text other text other :=
  ⟨alike, Nat.le_refl _, Nat.le_refl _, by simp⟩

theorem Level.trans {text other middle middle' rest rest' : List Char}
    (first : Level text other middle middle') (second : Level middle middle' rest rest') :
    Level text other rest rest' := by
  obtain ⟨-, within, within', moved⟩ := first
  obtain ⟨alike, within₂, within₂', moved₂⟩ := second
  refine ⟨alike, by omega, by omega, ?_⟩
  omega

section
variable {α β γ δ : Type}

/-- Two readers agree on texts that are alike: both refuse, or they give values that look the
same and leave texts that are alike. -/
def Agree (view : α → γ) (first second : Reader α) : Prop :=
  ∀ text other, Alike text other →
    first text = none ∧ second other = none ∨
    ∃ value rest value' rest', first text = some (value, rest) ∧
      second other = some (value', rest') ∧ view value = view value' ∧ Level text other rest rest'

/-- A reader that gives the very same on texts that are alike. -/
def Steady (reader : Reader α) : Prop := Agree id reader reader

theorem agree_pure {view : α → γ} {value value' : α} (same : view value = view value') :
    Agree view (pure value) (pure value') :=
  fun text other alike => .inr ⟨value, text, value', other, rfl, rfl, same, .still alike⟩

theorem steady_pure (value : α) : Steady (pure value) := agree_pure rfl

theorem agree_bind {view : α → γ} {view' : β → δ} {first second : Reader α}
    {next next' : α → Reader β} (front : Agree view first second)
    (behind : ∀ value value', view value = view value' → Agree view' (next value) (next' value')) :
    Agree view' (first >>= next) (second >>= next') := by
  intro text other alike
  rcases front text other alike with ⟨refused, refused'⟩ |
    ⟨value, middle, value', middle', read, read', same, level⟩
  · exact .inl ⟨bind_refuses refused, bind_refuses refused'⟩
  · rw [bind_reads read, bind_reads read']
    rcases behind value value' same middle middle' level.alike with refused |
      ⟨result, rest, result', rest', read, read', same, level'⟩
    · exact .inl refused
    · exact .inr ⟨result, rest, result', rest', read, read', same, level.trans level'⟩

theorem agree_behind {view : β → δ} {first : Reader α} {next next' : α → Reader β}
    (front : Steady first) (behind : ∀ value, Agree view (next value) (next' value)) :
    Agree view (first >>= next) (first >>= next') :=
  agree_bind front fun value value' same => by
    cases same
    exact behind value

theorem steady_bind {first : Reader α} {next : α → Reader β} (front : Steady first)
    (behind : ∀ value, Steady (next value)) : Steady (first >>= next) :=
  agree_behind front behind

theorem agree_orElse {view : α → γ} {first second first' second' : Reader α}
    (left : Agree view first first') (right : Agree view second second') :
    Agree view (first.orElse second) (first'.orElse second') := by
  intro text other alike
  rcases left text other alike with ⟨refused, refused'⟩ |
    ⟨value, rest, value', rest', read, read', same, level⟩
  · rw [orElse_refuses refused, orElse_refuses refused']
    exact right text other alike
  · exact .inr ⟨value, rest, value', rest', orElse_reads read, orElse_reads read', same, level⟩

theorem agree_optional {view : α → γ} {first second : Reader α} (each : Agree view first second) :
    Agree (Option.map view) first.optional second.optional := by
  intro text other alike
  rcases each text other alike with ⟨refused, refused'⟩ |
    ⟨value, rest, value', rest', read, read', same, level⟩
  · exact .inr ⟨none, text, none, other, optional_refuses refused, optional_refuses refused', rfl,
      .still alike⟩
  · exact .inr ⟨some value, rest, some value', rest', optional_reads read, optional_reads read',
      congrArg some same, level⟩

theorem steady_optional {reader : Reader α} (each : Steady reader) : Steady reader.optional := by
  have agree := agree_optional each
  rwa [Option.map_id] at agree

theorem steady_mapped {reader : Reader α} (each : Steady reader) (table : α → Option β) :
    Steady (reader.mapped table) := by
  intro text other alike
  unfold mapped
  rcases each text other alike with ⟨refused, refused'⟩ |
    ⟨value, rest, value', rest', read, read', rfl, level⟩
  · rw [refused, refused']
    exact .inl ⟨rfl, rfl⟩
  · rw [read, read']
    cases found : table value with
    | none => exact .inl (by simp [found])
    | some result => exact .inr ⟨result, rest, result, rest', by simp [found], by simp [found], rfl,
        level⟩

/-- Rows end at the same places, since both readers move on or neither does. -/
theorem agree_many {view : α → γ} {first second : Reader α} (each : Agree view first second) :
    Agree (List.map view) first.many second.many := by
  intro text other alike
  refine .inr ⟨_, _, _, _, rfl, rfl, ?_⟩
  fun_induction Reader.rowFrom first text generalizing other with
  | case1 text value rest taken shorter values remainder found ih =>
    rcases each text other alike with ⟨refused, -⟩ |
      ⟨_, _, value', rest', read, read', same, level⟩
    · rw [refused] at taken
      cases taken
    · rw [taken] at read
      cases read
      obtain ⟨sameRow, level'⟩ := ih rest' level.alike
      rw [found] at sameRow level'
      rw [Reader.rowFrom, read']
      simp only [if_pos (level.moved.mp shorter)]
      exact ⟨by simp [same, sameRow], level.trans level'⟩
  | case2 text value rest taken short =>
    rcases each text other alike with ⟨refused, -⟩ |
      ⟨_, _, value', rest', read, read', same, level⟩
    · rw [refused] at taken
      cases taken
    · rw [taken] at read
      cases read
      rw [Reader.rowFrom, read']
      dsimp only
      rw [if_neg (mt level.moved.mpr short)]
      exact ⟨rfl, .still alike⟩
  | case3 text refused =>
    rcases each text other alike with ⟨-, refused'⟩ | ⟨_, _, _, _, read, -⟩
    · rw [Reader.rowFrom, refused']
      exact ⟨rfl, .still alike⟩
    · rw [refused] at read
      cases read

theorem agree_many1 {view : α → γ} {first second : Reader α} (each : Agree view first second) :
    Agree (List.map view) first.many1 second.many1 :=
  agree_bind each fun _ _ same => agree_bind (agree_many each) fun _ _ more =>
    agree_pure (by simp [same, more])

end

/-! ## Words -/

theorem steady_gap : Steady gap := by
  intro text other alike
  refine .inr ⟨(), _, (), _, rfl, rfl, rfl, ?_⟩
  cases alike with
  | done => exact .still .done
  | visible solid rest =>
    rw [dropGap_solid (solid_cons solid _), dropGap_solid (solid_cons solid _)]
    exact .still (.visible solid rest)
  | gap opens opens' behind =>
    exact ⟨behind, Nat.le_of_lt (dropGap_shorter opens), Nat.le_of_lt (dropGap_shorter opens'),
      iff_of_true (dropGap_shorter opens) (dropGap_shorter opens')⟩

theorem steady_ending : Steady ending := by
  intro text other alike
  cases alike with
  | done => exact .inr ⟨(), [], (), [], rfl, rfl, rfl, .still .done⟩
  | visible solid rest => exact .inl ⟨rfl, rfl⟩
  | gap opens opens' behind =>
    cases text with
    | nil => exact absurd (by simp [Solid]) opens
    | cons c text =>
      cases other with
      | nil => exact absurd (by simp [Solid]) opens'
      | cons d other => exact .inl ⟨rfl, rfl⟩

theorem Level.step {c d : Char} {text other : List Char} (alike : Alike text other) :
    Level (c :: text) (d :: other) text other :=
  ⟨alike, Nat.le_succ _, Nat.le_succ _, iff_of_true (Nat.lt_succ_self _) (Nat.lt_succ_self _)⟩

/-- A class of visible characters stops in front of every gap. -/
theorem steady_takeWhile {class? : Char → Bool} (visible : ∀ c, class? c = true → isSolid c = true) :
    Steady (Reader.takeWhile class?) := by
  intro text other alike
  refine .inr ⟨_, _, _, _, rfl, rfl, ?_⟩
  have stops : ∀ text, ¬Solid text → text.takeWhile class? = [] ∧ text.dropWhile class? = text := by
    intro text opens
    cases text with
    | nil => exact ⟨rfl, rfl⟩
    | cons c rest =>
      have outside : class? c = false := by
        cases inside : class? c with
        | false => rfl
        | true => exact absurd (solid_cons (visible c inside) rest) opens
      simp [outside]
  induction alike with
  | done => exact ⟨rfl, .still .done⟩
  | @visible c text other solid rest ih =>
    by_cases inside : class? c = true
    · simp only [List.takeWhile_cons_of_pos inside, List.dropWhile_cons_of_pos inside]
      obtain ⟨same, level⟩ := ih
      exact ⟨congrArg (c :: ·) same, (Level.step rest).trans level⟩
    · simp only [List.takeWhile_cons_of_neg inside, List.dropWhile_cons_of_neg inside]
      exact ⟨trivial, .still (.visible solid rest)⟩
  | gap opens opens' behind =>
    obtain ⟨taken, left⟩ := stops _ opens
    obtain ⟨taken', left'⟩ := stops _ opens'
    rw [taken, taken', left, left']
    exact ⟨rfl, .still (.gap opens opens' behind)⟩

theorem steady_char {c : Char} (solid : isSolid c = true) : Steady (char c) := by
  have refuses : ∀ text, ¬Solid text → char c text = none := by
    intro text opens
    cases text with
    | nil => rfl
    | cons d rest =>
      refine char_refuses ?_ rest
      rintro rfl
      exact opens (solid_cons solid rest)
  intro text other alike
  cases alike with
  | done => exact .inl ⟨rfl, rfl⟩
  | @visible d text other solid' rest =>
    by_cases same : d = c
    · subst same
      exact .inr ⟨(), text, (), other, char_reads d text, char_reads d other, rfl, .step rest⟩
    · exact .inl ⟨char_refuses same text, char_refuses same other⟩
  | gap opens opens' => exact .inl ⟨refuses _ opens, refuses _ opens'⟩

theorem steady_exactly {word : String} (solid : word.toList.all isSolid = true) :
    Steady (exactly word) := by
  unfold exactly
  generalize word.toList = letters at solid
  induction letters with
  | nil => exact fun text other alike => .inr ⟨(), text, (), other, by simp, by simp, rfl, .still alike⟩
  | cons c letters ih =>
    obtain ⟨first, more⟩ : isSolid c = true ∧ letters.all isSolid = true := by simpa using solid
    have refuses : ∀ text, ¬Solid text → List.isPrefixOf? (c :: letters) text = none := by
      intro text opens
      cases text with
      | nil => rfl
      | cons d rest =>
        have other : c ≠ d := by
          rintro rfl
          exact opens (solid_cons first rest)
        simp [List.isPrefixOf?, other]
    intro text other alike
    cases alike with
    | done => exact .inl ⟨rfl, rfl⟩
    | @visible d text other solid' rest =>
      by_cases same : c = d
      · subst same
        simp only [List.isPrefixOf?, beq_self_eq_true, if_true]
        rcases ih more text other rest with refused |
          ⟨value, left, value', left', read, read', same, level⟩
        · exact .inl refused
        · exact .inr ⟨value, left, value', left', read, read', trivial,
            (Level.step rest).trans level⟩
      · exact .inl (by simp [List.isPrefixOf?, same])
    | gap opens opens' => exact .inl (by simp [refuses _ opens, refuses _ opens'])

theorem isSolid_of_isDigit {c : Char} (digit : c.isDigit = true) : isSolid c = true :=
  isSolid_of_isNameChar (by simp [isNameChar, Char.isAlphanum, digit])

theorem steady_takeWhile1 {class? : Char → Bool}
    (visible : ∀ c, class? c = true → isSolid c = true) : Steady (Reader.takeWhile1 class?) :=
  steady_mapped (steady_takeWhile visible) _

theorem steady_symbol {c : Char} (solid : isSolid c = true) : Steady (symbol c) :=
  steady_bind steady_gap fun _ => steady_char solid

theorem steady_keyword {word : String} (solid : word.toList.all isSolid = true) :
    Steady (keyword word) :=
  steady_bind steady_gap fun _ => steady_exactly solid

theorem steady_tabled {α : Type} (table : String → Option α) : Steady (tabled table) :=
  steady_bind steady_gap fun _ => steady_mapped
    (steady_takeWhile fun _ word => isSolid_of_isNameChar (isNameChar_of_isWordChar word)) _

theorem steady_spelling : Steady spelling :=
  steady_bind (steady_takeWhile1 fun _ => isSolid_of_isNameChar) fun _ => steady_pure _

theorem steady_localName : Steady localName :=
  steady_bind (steady_symbol (by decide)) fun _ => steady_spelling

theorem steady_globalName : Steady globalName :=
  steady_bind (steady_symbol (by decide)) fun _ => steady_spelling

theorem steady_blockLabel : Steady blockLabel :=
  steady_bind steady_gap fun _ => steady_bind steady_spelling fun _ =>
    steady_bind (steady_char (by decide)) fun _ => steady_pure _

theorem steady_digits : Steady digits := steady_takeWhile1 fun _ => isSolid_of_isDigit

theorem steady_kept {c : Char} (solid : isSolid c = true) : Steady (kept c) :=
  steady_bind (steady_char solid) fun _ => steady_pure _

theorem steady_exponent : Steady exponent := by
  have letter : Steady ((kept 'e').orElse (kept 'E')) :=
    agree_orElse (steady_kept (by decide)) (steady_kept (by decide))
  have sign : Steady (((kept '+').orElse (kept '-')).orElse (pure [])) :=
    agree_orElse (agree_orElse (steady_kept (by decide)) (steady_kept (by decide))) (steady_pure [])
  exact steady_bind letter fun _ => steady_bind sign fun _ => steady_bind steady_digits fun _ =>
    steady_pure _

theorem steady_fraction : Steady fraction := by
  refine agree_orElse ?pointed steady_exponent
  exact steady_bind (steady_kept (by decide)) fun _ =>
    steady_bind (steady_takeWhile fun _ => isSolid_of_isDigit) fun _ =>
      steady_bind (agree_orElse steady_exponent (steady_pure [])) fun _ => steady_pure _

theorem steady_numeral : Steady numeral := by
  have sign : Steady minus := agree_orElse (steady_kept (by decide)) (steady_pure [])
  refine steady_bind steady_gap fun _ => steady_bind sign fun _ =>
    steady_bind steady_digits fun _ => steady_bind (steady_optional steady_fraction) fun found => ?_
  cases found <;> exact steady_pure _

end Lexeme

end KernelGuard
