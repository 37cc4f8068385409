import KernelGuard.Proofs.SurveyContents
import Mathlib.Data.Set.Card
import Mathlib.Logic.Relation

/-! When a condition is understood. The walk with its pending nodes, its visited
names and its budget is compared with the graph of first definitions itself:
every value that conjunctions lead to has to be a conjunction or a bounding
comparison, and there may be only so many conjunctions. The facts are then those
of a plain recursive descent, left operand first. -/
namespace KernelGuard.Condition

variable {func : Func} {symbols : IndexSymbols}

/-- An instruction joins two values by a conjunction. -/
def Joins (definition : Instr) (lhs rhs : Value) : Prop :=
  ∃ target type, definition = .arith target .and type lhs rhs

/-- A conjunction leads from the temporary that it defines first to its operands. -/
def LeadsTo (func : Func) (value operand : Value) : Prop :=
  ∃ definition lhs rhs, definitionOf? func value = some definition ∧ Joins definition lhs rhs ∧
    (operand = lhs ∨ operand = rhs)

/-- The values that conjunctions lead to from a condition, which is one of them. -/
def Reaches (func : Func) : Value → Value → Prop := Relation.ReflTransGen (LeadsTo func)

/-- An index is a sum, or a sum made narrower once. -/
def IsSum (func : Func) (index a b : Value) : Prop :=
  ∃ origin target type, definitionOf? func origin = some (.arith target .add type a b) ∧
    (origin = index ∨
      ∃ narrow source result,
        definitionOf? func index = some (.convert narrow .trunc source origin result))

/-- A value is loaded from an address that is named like the symbol of a dimension. -/
def LoadsIndex (func : Func) (symbols : IndexSymbols) (value : Value)
    (dimension : Dimension) : Prop :=
  ∃ target type address, definitionOf? func value = some (.load target type (.temp address)) ∧
    symbols.dimensionOf? address.name.spelling = some dimension

/-- A comparison tests that the index in a dimension is less than a parameter. -/
inductive Bounds (func : Func) (symbols : IndexSymbols) : Instr → Dimension → Value → Prop where
  | less {target bound : Temp} {predicate : Predicate} {type : Ty} {index a b : Value}
      (order : predicate = .ult ∨ predicate = .slt) (parameter : func.isParam bound.name = true)
      (sum : IsSum func index a b)
      (loads : LoadsIndex func symbols a dimension ∨ LoadsIndex func symbols b dimension) :
      Bounds func symbols (.compare target .icmp predicate type index (.temp bound))
        dimension (.temp bound)

/-- A value reads a temporary whose first definition is a conjunction or bounds
some dimension. -/
def Accepted (func : Func) (symbols : IndexSymbols) (value : Value) : Prop :=
  ∃ temp definition, value = .temp temp ∧ func.definition? temp.name = some definition ∧
    ((∃ lhs rhs, Joins definition lhs rhs) ∨
      ∃ dimension bound, Bounds func symbols definition dimension bound)

/-- The names of the conjunctions that a condition reaches. -/
def conjunctions (func : Func) (condition : Value) : Set Name :=
  { name | ∃ temp definition lhs rhs, temp.name = name ∧ Reaches func condition (.temp temp) ∧
    func.definition? name = some definition ∧ Joins definition lhs rhs }

/-- The recursive descent: the temporaries other than conjunctions in the order
in which they are met, the left operand of a conjunction before the right one and
every temporary once. The lists of names are those met before and after. -/
inductive Descent (func : Func) : List Name → Value → List Temp → List Name → Prop where
  | constant (isConstant : value.isConstant = true) : Descent func met value [] met
  | again (known : temp.name ∈ met) : Descent func met (.temp temp) [] met
  | leaf (fresh : temp.name ∉ met)
      (end' : ∀ definition lhs rhs, func.definition? temp.name = some definition →
        ¬Joins definition lhs rhs) :
      Descent func met (.temp temp) [temp] (temp.name :: met)
  | conjunction (fresh : temp.name ∉ met) (defined : func.definition? temp.name = some definition)
      (joins : Joins definition lhs rhs) (left : Descent func (temp.name :: met) lhs lefts between)
      (right : Descent func between rhs rights after) :
      Descent func met (.temp temp) (lefts ++ rights) after

/-- A fact is that of the first comparison in an order that bounds its dimension. -/
def IsFirstBound (func : Func) (symbols : IndexSymbols) (order : List Temp)
    (fact : BoundFact) : Prop :=
  ∃ earlier later definition, order = earlier ++ fact.compare :: later ∧
    func.definition? fact.compare.name = some definition ∧
    Bounds func symbols definition fact.dimension fact.bound ∧ fact.text = definition.text ∧
    ∀ temp ∈ earlier, ∀ other bound, func.definition? temp.name = some other →
      ¬Bounds func symbols other fact.dimension bound

/-! ## What one comparison says -/

private theorem addends?_eq_some_iff {index a b : Value} :
    addends? func index = some (a, b) ↔ IsSum func index a b := by
  constructor
  · intro found
    unfold addends? at found
    split at found
    · rename_i narrow source origin result truncated
      dsimp only at found
      split at found
      · rename_i target type lhs rhs sum
        cases found
        exact ⟨origin, target, type, sum, .inr ⟨narrow, source, result, truncated⟩⟩
      · cases found
    · dsimp only at found
      split at found
      · rename_i target type lhs rhs sum
        cases found
        exact ⟨index, target, type, sum, .inl rfl⟩
      · cases found
  · rintro ⟨origin, target, type, sum, rfl | ⟨narrow, source, result, truncated⟩⟩
    · simp [addends?, sum]
    · simp [addends?, truncated, sum]

private theorem loadedDimension?_eq_some_iff {value : Value} {dimension : Dimension} :
    loadedDimension? func symbols value = some dimension ↔
      LoadsIndex func symbols value dimension := by
  constructor
  · intro found
    unfold loadedDimension? at found
    split at found
    · rename_i target type address load
      simp only [Option.bind_eq_some_iff] at found
      obtain ⟨name, read, named⟩ := found
      cases address with
      | temp address =>
        cases read
        exact ⟨target, type, address, load, named⟩
      | bool | int | long | float | double => cases read
    · cases found
  · rintro ⟨target, type, address, load, named⟩
    simp [loadedDimension?, load, Value.name?, Value.temp?, named]

private theorem isParameter_iff {value : Value} :
    isParameter func value = true ↔
      ∃ temp, value = .temp temp ∧ func.isParam temp.name = true := by
  cases value with
  | temp temp => simp [isParameter, Value.name?, Value.temp?]
  | bool | int | long | float | double => simp [isParameter, Value.name?, Value.temp?]

/-- A comparison stands in the way exactly when it bounds nothing; otherwise it
states a fact for each dimension that it bounds. -/
private theorem ofCompare_cases (func : Func) (symbols : IndexSymbols) (temp target : Temp)
    (kind : CompareKind) (predicate : Predicate) (type : Ty) (lhs rhs : Value) (text : String) :
    ((∃ cause, ofCompare func symbols temp kind predicate lhs rhs text = [.obstacle cause]) ∧
      ∀ dimension bound,
        ¬Bounds func symbols (.compare target kind predicate type lhs rhs) dimension bound) ∨
    ∃ dimensions, dimensions ≠ [] ∧
      ofCompare func symbols temp kind predicate lhs rhs text =
        dimensions.map (fun dimension => .fact ⟨dimension, temp, rhs, text⟩) ∧
      ∀ dimension bound,
        Bounds func symbols (.compare target kind predicate type lhs rhs) dimension bound ↔
          dimension ∈ dimensions ∧ bound = rhs := by
  by_cases order : kind = .icmp ∧ (predicate = .ult ∨ predicate = .slt)
  case neg =>
    refine .inl ⟨⟨.predicate text, by simp only [ofCompare, if_pos order]⟩, ?_⟩
    intro dimension bound bounds
    cases bounds with
    | less less => exact order ⟨rfl, less⟩
  by_cases parameter : isParameter func rhs = true
  case neg =>
    refine .inl ⟨⟨.bound text, by
      simp only [ofCompare, if_neg (not_not_intro order), if_pos parameter]⟩, ?_⟩
    intro dimension bound bounds
    cases bounds with
    | less _ isParam => exact parameter (isParameter_iff.mpr ⟨_, rfl, isParam⟩)
  cases sum : addends? func lhs with
  | none =>
    refine .inl ⟨⟨.index text, by simp [ofCompare, order, parameter, sum]⟩, ?_⟩
    intro dimension bound bounds
    cases bounds with
    | less _ _ isSum => simp [addends?_eq_some_iff.mpr isSum] at sum
  | some addends =>
    obtain ⟨a, b⟩ := addends
    have bounds_iff : ∀ dimension bound,
        Bounds func symbols (.compare target kind predicate type lhs rhs) dimension bound ↔
          dimension ∈ [a, b].filterMap (loadedDimension? func symbols) ∧ bound = rhs := by
      intro dimension bound
      simp only [List.mem_filterMap, List.mem_cons, List.not_mem_nil, or_false,
        exists_eq_or_imp, exists_eq_left, loadedDimension?_eq_some_iff]
      constructor
      · intro bounds
        cases bounds with
        | less _ _ isSum loads =>
          rw [← addends?_eq_some_iff, sum] at isSum
          cases isSum
          exact ⟨loads, rfl⟩
      · rintro ⟨loads, rfl⟩
        obtain ⟨bound, rfl, isParam⟩ := isParameter_iff.mp parameter
        obtain ⟨rfl, less⟩ := order
        exact .less less isParam (addends?_eq_some_iff.mp sum) loads
    cases loaded : [a, b].filterMap (loadedDimension? func symbols) with
    | nil =>
      refine .inl ⟨⟨.noLocalIndex text, by simp [ofCompare, order, parameter, sum, loaded]⟩, ?_⟩
      intro dimension bound bounds
      simpa [loaded] using (bounds_iff dimension bound).mp bounds
    | cons first more =>
      refine .inr ⟨first :: more, by simp, ?_, by simpa only [loaded] using bounds_iff⟩
      simp only [ofCompare, if_neg (not_not_intro order), if_neg (not_not_intro parameter), sum,
        loaded]

/-- The same for any first definition that is met outside conjunctions. -/
private theorem leaf_findings_cases (func : Func) (symbols : IndexSymbols) (temp : Temp)
    (definition : Instr) :
    ((∃ cause, findings func symbols (.leaf temp (some definition)) = [.obstacle cause]) ∧
      ∀ dimension bound, ¬Bounds func symbols definition dimension bound) ∨
    ∃ dimensions bound, dimensions ≠ [] ∧
      findings func symbols (.leaf temp (some definition)) =
        dimensions.map (fun dimension => .fact ⟨dimension, temp, bound, definition.text⟩) ∧
      ∀ dimension other, Bounds func symbols definition dimension other ↔
        dimension ∈ dimensions ∧ other = bound := by
  cases definition with
  | compare target kind predicate type lhs rhs =>
    rcases ofCompare_cases func symbols temp target kind predicate type lhs rhs
      (Instr.compare target kind predicate type lhs rhs).text with obstacle | ⟨dimensions, facts⟩
    · exact .inl obstacle
    · exact .inr ⟨dimensions, rhs, facts⟩
  | arith target op =>
    refine .inl ⟨?_, fun _ _ bounds => nomatch bounds⟩
    cases op <;> exact ⟨_, rfl⟩
  | convert target op =>
    refine .inl ⟨?_, fun _ _ bounds => nomatch bounds⟩
    cases op <;> exact ⟨_, rfl⟩
  | load | store | elementPtr | call | phi | jump | branch | ret =>
    exact .inl ⟨⟨_, rfl⟩, fun _ _ bounds => nomatch bounds⟩

/-! ## One step of the walk -/

/-- A node that may be met on a walk: a constant, a temporary met before, a
conjunction, or any other temporary. -/
theorem node_cases (func : Func) (met : List Name) (value : Value) :
    value.isConstant = true ∨ (∃ temp, value = .temp temp ∧ temp.name ∈ met) ∨
      (∃ temp definition lhs rhs, value = .temp temp ∧ temp.name ∉ met ∧
        func.definition? temp.name = some definition ∧ Joins definition lhs rhs) ∨
      ∃ temp, value = .temp temp ∧ temp.name ∉ met ∧
        ∀ definition lhs rhs, func.definition? temp.name = some definition →
          ¬Joins definition lhs rhs := by
  cases value with
  | bool | int | long | float | double => exact .inl rfl
  | temp temp =>
    by_cases known : temp.name ∈ met
    · exact .inr (.inl ⟨temp, rfl, known⟩)
    by_cases opened : ∃ definition lhs rhs, func.definition? temp.name = some definition ∧
        Joins definition lhs rhs
    · obtain ⟨definition, lhs, rhs, defined, joins⟩ := opened
      exact .inr (.inr (.inl ⟨temp, definition, lhs, rhs, rfl, known, defined, joins⟩))
    · exact .inr (.inr (.inr ⟨temp, rfl, known, fun definition lhs rhs defined joins =>
        opened ⟨definition, lhs, rhs, defined, joins⟩⟩))

theorem walk_constant (isConstant : value.isConstant = true) :
    walk definition? (budget + 1) (value :: pending) met =
      .constant value :: walk definition? budget pending met := by
  cases value with
  | temp temp => cases isConstant
  | bool | int | long | float | double => rfl

theorem walk_again (known : temp.name ∈ met) :
    walk definition? (budget + 1) (.temp temp :: pending) met =
      .repeated temp :: walk definition? budget pending met := by
  simp only [walk, if_pos known]

theorem walk_conjunction (fresh : temp.name ∉ met)
    (defined : definition? temp.name = some definition) (joins : Joins definition lhs rhs) :
    walk definition? (budget + 1) (.temp temp :: pending) met =
      .conjunction temp ::
        walk definition? budget (lhs :: rhs :: pending) (temp.name :: met) := by
  obtain ⟨target, type, rfl⟩ := joins
  simp only [walk, if_neg fresh, defined]

theorem walk_leaf (fresh : temp.name ∉ met)
    (end' : ∀ definition lhs rhs, definition? temp.name = some definition →
      ¬Joins definition lhs rhs) :
    walk definition? (budget + 1) (.temp temp :: pending) met =
      .leaf temp (definition? temp.name) ::
        walk definition? budget pending (temp.name :: met) := by
  simp only [walk, if_neg fresh]
  split
  · rename_i target type lhs rhs defined
    exact absurd ⟨target, type, rfl⟩ (end' _ lhs rhs defined)
  · rfl

/-! ## The walk and the graph of definitions -/

/-- A visit with nothing in the way. -/
private def Clear (func : Func) (symbols : IndexSymbols) (visit : Visit) : Prop :=
  ∀ finding ∈ findings func symbols visit, finding.isObstacle = false

private theorem clear_leaf_iff {temp : Temp} :
    Clear func symbols (.leaf temp (func.definition? temp.name)) ↔
      ∃ definition dimension bound, func.definition? temp.name = some definition ∧
        Bounds func symbols definition dimension bound := by
  cases defined : func.definition? temp.name with
  | none => simp [Clear, findings, Finding.isObstacle]
  | some definition =>
    rcases leaf_findings_cases func symbols temp definition with
      ⟨⟨cause, obstacle⟩, none⟩ | ⟨dimensions, bound, nonempty, facts, bounds⟩
    · simp [Clear, obstacle, Finding.isObstacle, none]
    · obtain ⟨dimension, member⟩ := List.exists_mem_of_ne_nil _ nonempty
      constructor
      · intro _
        exact ⟨definition, dimension, bound, rfl, (bounds dimension bound).mpr ⟨member, rfl⟩⟩
      · intro _ finding found
        rw [facts] at found
        obtain ⟨_, _, rfl⟩ := List.mem_map.mp found
        rfl

/-- A value reads one of some temporaries. -/
private def Reads (names : List Name) (value : Value) : Prop :=
  ∃ name ∈ names, value.name? = some name

private theorem reads_widened (reads : Reads names value) (wider : ∀ name ∈ names, name ∈ more) :
    Reads more value := by
  obtain ⟨name, member, read⟩ := reads
  exact ⟨name, wider name member, read⟩

/-- What a walk has met when it is done with its pending nodes: conjunctions, all
of whose operands have been met, and ends that bound something. -/
private structure Covers (func : Func) (symbols : IndexSymbols) (pending : List Value)
    (met opened ends : List Name) : Prop where
  reached : ∀ value ∈ pending, Reads (opened ++ ends ++ met) value
  joined : ∀ name ∈ opened, ∃ definition lhs rhs, func.definition? name = some definition ∧
    Joins definition lhs rhs ∧ Reads (opened ++ ends ++ met) lhs ∧
    Reads (opened ++ ends ++ met) rhs
  bounded : ∀ name ∈ ends, ∃ definition dimension bound,
    func.definition? name = some definition ∧ Bounds func symbols definition dimension bound

/-- A walk that meets no obstacle has met everything that it could, and each
conjunction has cost it two further nodes. -/
private theorem walk_covers (budget : Nat) (pending : List Value) (met : List Name)
    (clear : ∀ visit ∈ walk func.definition? budget pending met, Clear func symbols visit) :
    ∃ opened ends, Covers func symbols pending met opened ends ∧
      2 * opened.length + pending.length ≤ budget := by
  induction budget generalizing pending met with
  | zero =>
    cases pending with
    | nil => exact ⟨[], [], ⟨by simp, by simp, by simp⟩, by simp⟩
    | cons value pending =>
      have obstacle := clear .exhausted (by simp [walk])
      simp [Clear, findings, Finding.isObstacle] at obstacle
  | succ budget ih =>
    cases pending with
    | nil => exact ⟨[], [], ⟨by simp, by simp, by simp⟩, by simp⟩
    | cons value pending =>
      rcases node_cases func met value with isConstant | ⟨temp, rfl, known⟩ |
        ⟨temp, definition, lhs, rhs, rfl, fresh, defined, joins⟩ | ⟨temp, rfl, fresh, end'⟩
      · rw [walk_constant isConstant, List.forall_mem_cons] at clear
        simp [Clear, findings, Finding.isObstacle] at clear
      · rw [walk_again known, List.forall_mem_cons] at clear
        obtain ⟨opened, ends, covers, cost⟩ := ih pending met clear.2
        have first : Reads (opened ++ ends ++ met) (.temp temp) := ⟨temp.name, by simp [known], rfl⟩
        exact ⟨opened, ends, ⟨List.forall_mem_cons.mpr ⟨first, covers.reached⟩, covers.joined,
          covers.bounded⟩, by rw [List.length_cons]; omega⟩
      · rw [walk_conjunction fresh defined joins, List.forall_mem_cons] at clear
        obtain ⟨opened, ends, covers, cost⟩ := ih _ _ clear.2
        have same : ∀ name, name ∈ opened ++ ends ++ temp.name :: met →
            name ∈ temp.name :: opened ++ ends ++ met := by
          intro name member
          simp only [List.mem_append, List.mem_cons] at member ⊢
          tauto
        obtain ⟨left, right, others⟩ : Reads _ lhs ∧ Reads _ rhs ∧ ∀ value ∈ pending, Reads _ value := by
          simpa only [List.forall_mem_cons] using covers.reached
        refine ⟨temp.name :: opened, ends, ⟨?_, ?_, covers.bounded⟩, ?_⟩
        · exact List.forall_mem_cons.mpr ⟨⟨temp.name, by simp, rfl⟩,
            fun value member => reads_widened (others value member) same⟩
        · refine List.forall_mem_cons.mpr ⟨⟨definition, lhs, rhs, defined, joins,
            reads_widened left same, reads_widened right same⟩, ?_⟩
          intro name member
          obtain ⟨definition, lhs, rhs, defined, joins, left, right⟩ := covers.joined name member
          exact ⟨definition, lhs, rhs, defined, joins, reads_widened left same,
            reads_widened right same⟩
        · simp only [List.length_cons] at cost ⊢
          omega
      · rw [walk_leaf fresh end', List.forall_mem_cons] at clear
        obtain ⟨opened, ends, covers, cost⟩ := ih _ _ clear.2
        have same : ∀ name, name ∈ opened ++ ends ++ temp.name :: met →
            name ∈ opened ++ temp.name :: ends ++ met := by
          intro name member
          simp only [List.mem_append, List.mem_cons] at member ⊢
          tauto
        refine ⟨opened, temp.name :: ends, ⟨?_, ?_, ?_⟩, ?_⟩
        · exact List.forall_mem_cons.mpr ⟨⟨temp.name, by simp, rfl⟩,
            fun value member => reads_widened (covers.reached value member) same⟩
        · intro name member
          obtain ⟨definition, lhs, rhs, defined, joins, left, right⟩ := covers.joined name member
          exact ⟨definition, lhs, rhs, defined, joins, reads_widened left same,
            reads_widened right same⟩
        · exact List.forall_mem_cons.mpr ⟨clear_leaf_iff.mp clear.1, covers.bounded⟩
        · simp only [List.length_cons] at cost ⊢
          omega

/-- Conversely, a walk meets no obstacle if everything that the pending nodes
reach is accepted and the budget pays for the conjunctions among it. -/
private theorem walk_clear (budget : Nat) (pending : List Value) (met : List Name)
    (unopened : Finset Name)
    (accepted : ∀ value ∈ pending, ∀ reached, Reaches func value reached →
      Accepted func symbols reached)
    (enclosed : ∀ value ∈ pending, ∀ name ∈ conjunctions func value, name ∉ met → name ∈ unopened)
    (cost : 2 * unopened.card + pending.length ≤ budget) :
    ∀ visit ∈ walk func.definition? budget pending met, Clear func symbols visit := by
  induction budget generalizing pending met unopened with
  | zero =>
    cases pending with
    | nil => simp [walk]
    | cons value pending => simp at cost
  | succ budget ih =>
    cases pending with
    | nil => simp [walk]
    | cons value pending =>
      rw [List.forall_mem_cons] at accepted enclosed
      rw [List.length_cons] at cost
      rcases node_cases func met value with isConstant | ⟨temp, rfl, known⟩ |
        ⟨temp, definition, lhs, rhs, rfl, fresh, defined, joins⟩ | ⟨temp, rfl, fresh, end'⟩
      · obtain ⟨temp, _, rfl, _⟩ := accepted.1 value .refl
        cases isConstant
      · rw [walk_again known, List.forall_mem_cons]
        exact ⟨by simp [Clear, findings, Finding.isObstacle],
          ih pending met unopened accepted.2 enclosed.2 (by omega)⟩
      · rw [walk_conjunction fresh defined joins, List.forall_mem_cons]
        have member : temp.name ∈ unopened :=
          enclosed.1 _ ⟨temp, definition, lhs, rhs, rfl, .refl, defined, joins⟩ fresh
        have leads : ∀ operand, operand = lhs ∨ operand = rhs →
            LeadsTo func (.temp temp) operand := fun operand side =>
          ⟨definition, lhs, rhs, defined, joins, side⟩
        have deeper : ∀ operand, operand = lhs ∨ operand = rhs →
            (∀ reached, Reaches func operand reached → Accepted func symbols reached) ∧
              ∀ name ∈ conjunctions func operand, name ∉ met → name ∈ unopened := by
          intro operand side
          refine ⟨fun reached path => accepted.1 reached (.head (leads operand side) path), ?_⟩
          rintro name ⟨found, other, l, r, named, path, rest⟩
          exact enclosed.1 name ⟨found, other, l, r, named, .head (leads operand side) path, rest⟩
        refine ⟨by simp [Clear, findings], ih _ _ (unopened.erase temp.name) ?_ ?_ ?_⟩
        · exact List.forall_mem_cons.mpr ⟨(deeper lhs (.inl rfl)).1,
            List.forall_mem_cons.mpr ⟨(deeper rhs (.inr rfl)).1, accepted.2⟩⟩
        · have narrowed : ∀ value, (∀ name ∈ conjunctions func value, name ∉ met → name ∈ unopened) →
              ∀ name ∈ conjunctions func value, name ∉ temp.name :: met →
                name ∈ unopened.erase temp.name := by
            intro value inside name found unmet
            rw [List.mem_cons, not_or] at unmet
            exact Finset.mem_erase.mpr ⟨unmet.1, inside name found unmet.2⟩
          refine List.forall_mem_cons.mpr ⟨narrowed lhs (deeper lhs (.inl rfl)).2,
            List.forall_mem_cons.mpr ⟨narrowed rhs (deeper rhs (.inr rfl)).2, ?_⟩⟩
          exact fun value later => narrowed value (enclosed.2 value later)
        · have positive : 0 < unopened.card := Finset.card_pos.mpr ⟨_, member⟩
          rw [Finset.card_erase_of_mem member]
          simp only [List.length_cons]
          omega
      · rw [walk_leaf fresh end', List.forall_mem_cons]
        obtain ⟨found, definition, same, defined, shape⟩ := accepted.1 _ .refl
        cases same
        obtain ⟨dimension, bound, bounds⟩ : ∃ dimension bound,
            Bounds func symbols definition dimension bound := by
          rcases shape with ⟨lhs, rhs, joins⟩ | bounds
          · exact absurd joins (end' definition lhs rhs defined)
          · exact bounds
        refine ⟨clear_leaf_iff.mpr ⟨definition, dimension, bound, defined, bounds⟩,
          ih _ _ unopened accepted.2 ?_ (by omega)⟩
        intro value later name found unmet
        exact enclosed.2 value later name found (fun known => unmet (List.mem_cons_of_mem _ known))

/-! ## The order of the descent -/

/-- There is one descent from a value. -/
theorem descent_unique (first : Descent func met value order after)
    (second : Descent func met value order' after') : order = order' ∧ after = after' := by
  induction first generalizing order' after' with
  | constant isConstant =>
    cases second with
    | constant => exact ⟨rfl, rfl⟩
    | again | leaf | conjunction => cases isConstant
  | again known =>
    cases second with
    | constant isConstant => cases isConstant
    | again => exact ⟨rfl, rfl⟩
    | leaf fresh => exact absurd known fresh
    | conjunction fresh => exact absurd known fresh
  | leaf fresh end' =>
    cases second with
    | constant isConstant => cases isConstant
    | again known => exact absurd known fresh
    | leaf => exact ⟨rfl, rfl⟩
    | conjunction _ defined joins => exact absurd joins (end' _ _ _ defined)
  | conjunction fresh defined joins left right leftIH rightIH =>
    cases second with
    | constant isConstant => cases isConstant
    | again known => exact absurd known fresh
    | leaf _ end' => exact absurd joins (end' _ _ _ defined)
    | conjunction _ defined' joins' left' right' =>
      rw [defined] at defined'
      cases defined'
      obtain ⟨target, type, rfl⟩ := joins
      obtain ⟨_, _, same⟩ := joins'
      cases same
      obtain ⟨rfl, rfl⟩ := leftIH left'
      obtain ⟨rfl, rfl⟩ := rightIH right'
      exact ⟨rfl, rfl⟩

/-- Descents from several values, one after another. -/
private inductive Descents (func : Func) :
    List Name → List Value → List Temp → List Name → Prop where
  | nil : Descents func met [] [] met
  | cons (first : Descent func met value order between)
      (rest : Descents func between values more after) :
      Descents func met (value :: values) (order ++ more) after

/-- The temporary at an end of a condition. -/
private def leafOf : Visit → Option Temp
  | .leaf temp _ => some temp
  | _ => none

/-- A walk within its budget meets the ends in the order of the descent. -/
private theorem walk_descends (budget : Nat) (pending : List Value) (met : List Name)
    (within : Visit.exhausted ∉ walk func.definition? budget pending met) :
    ∃ after, Descents func met pending
      ((walk func.definition? budget pending met).filterMap leafOf) after := by
  induction budget generalizing pending met with
  | zero =>
    cases pending with
    | nil => exact ⟨met, by simpa [walk] using Descents.nil⟩
    | cons value pending => simp [walk] at within
  | succ budget ih =>
    cases pending with
    | nil => exact ⟨met, by simpa [walk] using Descents.nil⟩
    | cons value pending =>
      rcases node_cases func met value with isConstant | ⟨temp, rfl, known⟩ |
        ⟨temp, definition, lhs, rhs, rfl, fresh, defined, joins⟩ | ⟨temp, rfl, fresh, end'⟩
      · rw [walk_constant isConstant, List.mem_cons, not_or] at within
        obtain ⟨after, rest⟩ := ih _ _ within.2
        rw [walk_constant isConstant]
        exact ⟨after, .cons (.constant isConstant) rest⟩
      · rw [walk_again known, List.mem_cons, not_or] at within
        obtain ⟨after, rest⟩ := ih _ _ within.2
        rw [walk_again known]
        exact ⟨after, .cons (.again known) rest⟩
      · rw [walk_conjunction fresh defined joins, List.mem_cons, not_or] at within
        obtain ⟨after, rest⟩ := ih _ _ within.2
        rw [walk_conjunction fresh defined joins, List.filterMap_cons_none rfl]
        generalize (walk func.definition? budget (lhs :: rhs :: pending)
          (temp.name :: met)).filterMap leafOf = ends at rest
        cases rest with
        | cons left rest =>
          cases rest with
          | cons right rest =>
            rw [← List.append_assoc]
            exact ⟨after, .cons (.conjunction fresh defined joins left right) rest⟩
      · rw [walk_leaf fresh end', List.mem_cons, not_or] at within
        obtain ⟨after, rest⟩ := ih _ _ within.2
        rw [walk_leaf fresh end', List.filterMap_cons_some (rfl : leafOf (.leaf temp _) = some temp)]
        exact ⟨after, .cons (.leaf fresh end') rest⟩

/-! ## The facts -/

/-- The end of a condition is met with its first definition, and some pending node
reaches it. -/
private theorem walk_leaf_met (budget : Nat) (pending : List Value) (met : List Name)
    (visited : Visit.leaf temp definition ∈ walk func.definition? budget pending met) :
    definition = func.definition? temp.name ∧
      ∃ value ∈ pending, Reaches func value (.temp temp) := by
  induction budget generalizing pending met with
  | zero => cases pending <;> simp [walk] at visited
  | succ budget ih =>
    cases pending with
    | nil => simp [walk] at visited
    | cons value pending =>
      rcases node_cases func met value with isConstant | ⟨other, rfl, known⟩ |
        ⟨other, joint, lhs, rhs, rfl, fresh, defined, joins⟩ | ⟨other, rfl, fresh, end'⟩
      · rw [walk_constant isConstant] at visited
        obtain ⟨same, start, member, path⟩ := ih _ _ (by simpa using visited)
        exact ⟨same, start, List.mem_cons_of_mem _ member, path⟩
      · rw [walk_again known] at visited
        obtain ⟨same, start, member, path⟩ := ih _ _ (by simpa using visited)
        exact ⟨same, start, List.mem_cons_of_mem _ member, path⟩
      · rw [walk_conjunction fresh defined joins] at visited
        obtain ⟨same, start, member, path⟩ := ih _ _ (by simpa using visited)
        have leads : ∀ operand, operand = lhs ∨ operand = rhs →
            LeadsTo func (.temp other) operand := fun operand side =>
          ⟨joint, lhs, rhs, defined, joins, side⟩
        rcases List.mem_cons.mp member with rfl | member
        · exact ⟨same, _, List.mem_cons_self, .head (leads _ (.inl rfl)) path⟩
        rcases List.mem_cons.mp member with rfl | member
        · exact ⟨same, _, List.mem_cons_self, .head (leads _ (.inr rfl)) path⟩
        · exact ⟨same, start, List.mem_cons_of_mem _ member, path⟩
      · rw [walk_leaf fresh end', List.mem_cons] at visited
        rcases visited with first | later
        · cases first
          exact ⟨rfl, _, List.mem_cons_self, .refl⟩
        · obtain ⟨same, start, member, path⟩ := ih _ _ later
          exact ⟨same, start, List.mem_cons_of_mem _ member, path⟩

/-- The fact that the end of a condition states about a dimension. -/
private def factAt? (func : Func) (symbols : IndexSymbols) (dimension : Dimension)
    (temp : Temp) : Option BoundFact :=
  (findings func symbols (.leaf temp (func.definition? temp.name))).findSome?
    (Finding.factFor? dimension)

private theorem facts_in_order (dimension : Dimension) (visits : List Visit)
    (defined : ∀ temp definition, Visit.leaf temp definition ∈ visits →
      definition = func.definition? temp.name) :
    (visits.flatMap (findings func symbols)).findSome? (Finding.factFor? dimension) =
      (visits.filterMap leafOf).findSome? (factAt? func symbols dimension) := by
  induction visits with
  | nil => rfl
  | cons visit rest ih =>
    have later := ih fun temp definition member =>
      defined temp definition (List.mem_cons_of_mem _ member)
    rw [List.flatMap_cons, List.findSome?_append, later]
    cases visit with
    | leaf temp definition =>
      obtain rfl := defined temp definition List.mem_cons_self
      rw [List.filterMap_cons_some (rfl : leafOf (.leaf temp _) = some temp),
        List.findSome?_cons]
      change (factAt? func symbols dimension temp).or _ = _
      cases factAt? func symbols dimension temp <;> rfl
    | exhausted | constant | repeated | conjunction => rfl

private theorem factAt?_eq_some_iff {dimension : Dimension} {temp : Temp} {fact : BoundFact} :
    factAt? func symbols dimension temp = some fact ↔
      fact.compare = temp ∧ fact.dimension = dimension ∧ ∃ definition,
        func.definition? temp.name = some definition ∧
        Bounds func symbols definition dimension fact.bound ∧ fact.text = definition.text := by
  unfold factAt?
  cases defined : func.definition? temp.name with
  | none => simp [findings, Finding.factFor?]
  | some definition =>
    rcases leaf_findings_cases func symbols temp definition with
      ⟨⟨cause, obstacle⟩, none⟩ | ⟨dimensions, bound, -, facts, bounds⟩
    · simp [obstacle, Finding.factFor?, none]
    · have chosen : (dimensions.map (fun dimension =>
            Finding.fact ⟨dimension, temp, bound, definition.text⟩)).findSome?
              (Finding.factFor? dimension) = some fact ↔
          dimension ∈ dimensions ∧ fact = ⟨dimension, temp, bound, definition.text⟩ := by
        clear facts bounds
        induction dimensions with
        | nil => simp
        | cons first more ih =>
          by_cases same : first = dimension
          · subst same
            simp [Finding.factFor?, eq_comm]
          · simp [Finding.factFor?, same, Ne.symm same, ih]
      rw [facts, chosen]
      simp only [Option.some.injEq, exists_eq_left', bounds]
      obtain ⟨factDimension, factCompare, factBound, factText⟩ := fact
      simp only [BoundFact.mk.injEq]
      tauto

private theorem factAt?_eq_none_iff {dimension : Dimension} {temp : Temp} :
    factAt? func symbols dimension temp = none ↔
      ∀ definition bound, func.definition? temp.name = some definition →
        ¬Bounds func symbols definition dimension bound := by
  constructor
  · intro none definition bound defined bounds
    have some : factAt? func symbols dimension temp =
        some ⟨dimension, temp, bound, definition.text⟩ :=
      factAt?_eq_some_iff.mpr ⟨rfl, rfl, definition, defined, bounds, rfl⟩
    rw [none] at some
    cases some
  · intro unbounded
    cases found : factAt? func symbols dimension temp with
    | none => rfl
    | some fact =>
      obtain ⟨-, -, definition, defined, bounds, -⟩ := factAt?_eq_some_iff.mp found
      exact absurd bounds (unbounded definition fact.bound defined)

/-- The comparison that a fact of a survey names is reached from the condition, bounds the
dimension of the fact and is quoted in it. -/
private theorem survey_fact_bounds {condition : Value} {dimension : Dimension} {fact : BoundFact}
    (kept : (Survey.ofFindings (decompose func symbols condition)).value.facts.get dimension =
      some fact) :
    fact.dimension = dimension ∧ Reaches func condition (.temp fact.compare) ∧
      ∃ definition, func.definition? fact.compare.name = some definition ∧
        Bounds func symbols definition dimension fact.bound ∧ fact.text = definition.text := by
  rw [Survey.ofFindings_facts, decompose,
    facts_in_order dimension _ (fun _ _ visited => (walk_leaf_met _ _ _ visited).1)] at kept
  obtain ⟨temp, member, found⟩ := List.exists_of_findSome?_eq_some kept
  obtain ⟨rfl, same, origin⟩ := factAt?_eq_some_iff.mp found
  refine ⟨same, ?_, origin⟩
  obtain ⟨visit, visited, leaf⟩ := List.mem_filterMap.mp member
  cases visit with
  | leaf temp definition =>
    cases leaf
    obtain ⟨-, start, first, path⟩ := walk_leaf_met _ _ _ visited
    rwa [List.mem_singleton.mp first] at path
  | exhausted | constant | repeated | conjunction => cases leaf

/-- A fact that an analysis keeps belongs to a guard. Its comparison is reached from the
condition of the guard, bounds the dimension that the fact is for and is quoted in it. -/
theorem kept_fact_origin {postDominates : Nat → Nat → Bool} {region : Region}
    {dimension : Dimension} {fact : BoundFact}
    (kept : (Analysis.ofRegion func region postDominates symbols).value.survey.facts.get
      dimension = some fact) :
    fact.dimension = dimension ∧
      (∃ exit, (EarlyExit.locate func region postDominates).value = some exit ∧
        Reaches func exit.condition (.temp fact.compare)) ∧
      ∃ definition, func.definition? fact.compare.name = some definition ∧
        Bounds func symbols definition dimension fact.bound ∧ fact.text = definition.text := by
  cases located : (EarlyExit.locate func region postDominates).value with
  | none =>
    rw [Analysis.ofRegion_unlocated located] at kept
    simp [Survey.empty] at kept
  | some exit =>
    rw [Analysis.ofRegion_located located] at kept
    obtain ⟨same, path, origin⟩ := survey_fact_bounds kept
    exact ⟨same, ⟨exit, rfl, path⟩, origin⟩

theorem kept_fact_bounds {postDominates : Nat → Nat → Bool} {region : Region}
    {dimension : Dimension} {fact : BoundFact}
    (kept : (Analysis.ofRegion func region postDominates symbols).value.survey.facts.get
      dimension = some fact) :
    fact.dimension = dimension ∧
      (∃ exit, (EarlyExit.locate func region postDominates).value = some exit ∧
        Reaches func exit.condition (.temp fact.compare)) ∧
      ∃ definition, func.definition? fact.compare.name = some definition ∧
        Bounds func symbols definition dimension fact.bound := by
  obtain ⟨same, guard, definition, defined, bounds, -⟩ := kept_fact_origin kept
  exact ⟨same, guard, definition, defined, bounds⟩

/-- The facts of a walk within its budget are those of the descent. -/
private theorem fact_kept_iff {condition : Value} {dimension : Dimension} {fact : BoundFact}
    (within : Visit.exhausted ∉ walk func.definition? nodeLimit [condition] [])
    (descent : Descent func [] condition order after) :
    (Survey.ofFindings (decompose func symbols condition)).value.facts.get dimension = some fact ↔
      fact.dimension = dimension ∧ IsFirstBound func symbols order fact := by
  obtain ⟨_, descents⟩ := walk_descends _ _ _ within
  have ends : (walk func.definition? nodeLimit [condition] []).filterMap leafOf = order := by
    generalize (walk func.definition? nodeLimit [condition] []).filterMap leafOf = ends at descents
    cases descents with
    | cons first rest =>
      cases rest with
      | nil => rw [List.append_nil, (descent_unique first descent).1]
  rw [Survey.ofFindings_facts, decompose,
    facts_in_order dimension _ (fun _ _ visited => (walk_leaf_met _ _ _ visited).1), ends,
    List.findSome?_eq_some_iff]
  constructor
  · rintro ⟨earlier, temp, later, rfl, found, none⟩
    obtain ⟨rfl, rfl, definition, defined, bounds, text⟩ := factAt?_eq_some_iff.mp found
    exact ⟨rfl, earlier, later, definition, rfl, defined, bounds, text,
      fun temp member => factAt?_eq_none_iff.mp (none temp member)⟩
  · rintro ⟨rfl, earlier, later, definition, rfl, defined, bounds, text, none⟩
    exact ⟨earlier, fact.compare, later, rfl,
      factAt?_eq_some_iff.mpr ⟨rfl, rfl, definition, defined, bounds, text⟩,
      fun temp member => factAt?_eq_none_iff.mpr (none temp member)⟩

/-! ## Understanding a condition -/

private theorem within_of_clear {visits : List Visit}
    (clear : ∀ visit ∈ visits, Clear func symbols visit) : Visit.exhausted ∉ visits := by
  intro member
  have obstacle := clear _ member
  simp [Clear, findings, Finding.isObstacle] at obstacle

private theorem understood_iff_clear {condition : Value} :
    (Survey.ofFindings (decompose func symbols condition)).value.understood = true ↔
      ∀ visit ∈ walk func.definition? nodeLimit [condition] [], Clear func symbols visit := by
  rw [Survey.ofFindings_understood, List.all_eq_true]
  simp only [decompose, List.mem_flatMap, Bool.not_eq_true', Clear]
  exact ⟨fun all visit member finding found => all finding ⟨visit, member, found⟩,
    fun all finding ⟨visit, member, found⟩ => all visit member finding found⟩

/-- Everything that a condition reaches has been met by a walk without obstacles. -/
private theorem reached_of_covers (covers : Covers func symbols [condition] [] opened ends)
    (path : Reaches func condition value) : Reads (opened ++ ends) value := by
  induction path with
  | refl => simpa using covers.reached condition (by simp)
  | tail _ leads ih =>
    obtain ⟨name, member, read⟩ := ih
    obtain ⟨definition, lhs, rhs, defined, joins, side⟩ := leads
    rw [definitionOf?, read, Option.bind_some] at defined
    rcases List.mem_append.mp member with member | member
    · obtain ⟨other, l, r, defined', joins', left, right⟩ := covers.joined name member
      rw [defined] at defined'
      cases defined'
      obtain ⟨target, type, rfl⟩ := joins
      obtain ⟨_, _, same⟩ := joins'
      cases same
      rcases side with rfl | rfl
      · simpa using left
      · simpa using right
    · obtain ⟨other, dimension, bound, defined', bounds⟩ := covers.bounded name member
      rw [defined] at defined'
      cases defined'
      obtain ⟨target, type, rfl⟩ := joins
      cases bounds

private theorem accepted_of_covers (covers : Covers func symbols [condition] [] opened ends)
    (path : Reaches func condition value) : Accepted func symbols value := by
  obtain ⟨name, member, read⟩ := reached_of_covers covers path
  cases value with
  | bool | int | long | float | double => cases read
  | temp temp =>
    cases read
    rcases List.mem_append.mp member with member | member
    · obtain ⟨definition, lhs, rhs, defined, joins, -⟩ := covers.joined _ member
      exact ⟨temp, definition, rfl, defined, .inl ⟨lhs, rhs, joins⟩⟩
    · obtain ⟨definition, dimension, bound, defined, bounds⟩ := covers.bounded _ member
      exact ⟨temp, definition, rfl, defined, .inr ⟨dimension, bound, bounds⟩⟩

private theorem conjunctions_of_covers (covers : Covers func symbols [condition] [] opened ends) :
    conjunctions func condition ⊆ { name | name ∈ opened } := by
  rintro name ⟨temp, definition, lhs, rhs, rfl, path, defined, joins⟩
  obtain ⟨name, member, read⟩ := reached_of_covers covers path
  cases read
  rcases List.mem_append.mp member with member | member
  · exact member
  · obtain ⟨other, dimension, bound, defined', bounds⟩ := covers.bounded _ member
    rw [defined] at defined'
    cases defined'
    obtain ⟨target, type, rfl⟩ := joins
    cases bounds

/-- A condition is clear on the walk exactly when all that it reaches is accepted
and it has few enough conjunctions. -/
private theorem clear_iff {condition : Value} :
    (∀ visit ∈ walk func.definition? nodeLimit [condition] [], Clear func symbols visit) ↔
      (∀ value, Reaches func condition value → Accepted func symbols value) ∧
        (conjunctions func condition).encard ≤ ((nodeLimit - 1) / 2 : Nat) := by
  constructor
  · intro clear
    obtain ⟨opened, ends, covers, cost⟩ := walk_covers _ _ _ clear
    refine ⟨fun value => accepted_of_covers covers, ?_⟩
    have few : opened.length ≤ (nodeLimit - 1) / 2 := by
      rw [List.length_singleton] at cost
      omega
    calc (conjunctions func condition).encard
        ≤ (opened.toFinset : Set Name).encard :=
          Set.encard_le_encard (by simpa using conjunctions_of_covers covers)
      _ = opened.toFinset.card := Set.encard_coe_eq_coe_finsetCard _
      _ ≤ ((nodeLimit - 1) / 2 : Nat) :=
          Nat.cast_le.mpr (Nat.le_trans opened.toFinset_card_le few)
  · rintro ⟨accepted, few⟩
    have finite : (conjunctions func condition).Finite := Set.finite_of_encard_le_coe few
    refine walk_clear _ _ _ finite.toFinset (by simpa using accepted) (by simp) ?_
    rw [finite.encard_eq_coe_toFinset_card, Nat.cast_le] at few
    rw [List.length_singleton]
    have limit : nodeLimit = 64 := rfl
    omega

/-- Everything that an understood condition reaches is accepted, and only finitely many
conjunctions are among it. -/
theorem accepted_of_understood {postDominates : Nat → Nat → Bool} {region : Region}
    {exit : EarlyExit}
    (located : (EarlyExit.locate func region postDominates).value = some exit)
    (understood : (Analysis.ofRegion func region postDominates symbols).value.status =
      .understood) :
    (∀ value, Reaches func exit.condition value → Accepted func symbols value) ∧
      (conjunctions func exit.condition).Finite := by
  rw [Analysis.ofRegion_located located, Analysis.status] at understood
  dsimp only at understood
  split at understood
  · rename_i known
    obtain ⟨accepted, few⟩ := clear_iff.mp (understood_iff_clear.mp known)
    exact ⟨accepted, Set.finite_of_encard_le_coe few⟩
  · cases understood

/-- A guard is understood exactly when everything that its condition reaches
through conjunctions is a conjunction or bounds a dimension, and there are at most
so many conjunctions that the walk can pay for both operands of each. Each fact
is then that of the first comparison for its dimension on the recursive descent. -/
theorem understood_iff_conjunction_of_bounds {postDominates : Nat → Nat → Bool}
    {region : Region} {exit : EarlyExit}
    (located : (EarlyExit.locate func region postDominates).value = some exit) :
    let analysis := (Analysis.ofRegion func region postDominates symbols).value
    (analysis.status = .understood ↔
      (∀ value, Reaches func exit.condition value → Accepted func symbols value) ∧
        (conjunctions func exit.condition).encard ≤ ((nodeLimit - 1) / 2 : Nat)) ∧
    (analysis.status = .understood →
      ∃ order after, Descent func [] exit.condition order after ∧
        (∀ other after', Descent func [] exit.condition other after' → other = order) ∧
        ∀ dimension fact, analysis.survey.facts.get dimension = some fact ↔
          fact.dimension = dimension ∧ IsFirstBound func symbols order fact) := by
  intro analysis
  have made : analysis = ⟨some exit,
      (Survey.ofFindings (decompose func symbols exit.condition)).value, .replicate false⟩ :=
    Analysis.ofRegion_located located
  have understood : analysis.status = .understood ↔
      ∀ visit ∈ walk func.definition? nodeLimit [exit.condition] [], Clear func symbols visit := by
    rw [← understood_iff_clear, made, Analysis.status]
    dsimp only
    split <;> simp_all
  refine ⟨understood.trans clear_iff, ?_⟩
  intro known
  have within := within_of_clear (understood.mp known)
  obtain ⟨after, descents⟩ := walk_descends _ _ _ within
  generalize (walk func.definition? nodeLimit [exit.condition] []).filterMap leafOf = ends at descents
  cases descents with
  | cons first rest =>
    refine ⟨_, _, first, fun other after' descent => (descent_unique descent first).1, ?_⟩
    intro dimension fact
    rw [made]
    exact fact_kept_iff within first

/-- A kernel over a plane whose guard bounds both dimensions. -/
def planeKernel : Func where
  name := "plane"
  returnType := .void
  params := [.ofLocal "n" .i32, .ofLocal "m" .i32]
  blocks := [
    { label := "entry", phis := [],
      instrs := [
        .load (.ofLocal "x" .i32) .i32 (.temp (.ofGlobal "_local_id_x")),
        .load (.ofLocal "y" .i32) .i32 (.temp (.ofGlobal "_local_id_y")),
        .arith (.ofLocal "i" .i32) .add .i32 (.temp (.ofLocal "x" .i32)) (.int 8),
        .arith (.ofLocal "j" .i32) .add .i32 (.int 4) (.temp (.ofLocal "y" .i32)),
        .compare (.ofLocal "a" .i1) .icmp .ult .i32 (.temp (.ofLocal "i" .i32))
          (.temp (.ofLocal "n" .i32)),
        .compare (.ofLocal "b" .i1) .icmp .slt .i32 (.temp (.ofLocal "j" .i32))
          (.temp (.ofLocal "m" .i32)),
        .arith (.ofLocal "c" .i1) .and .i1 (.temp (.ofLocal "a" .i1)) (.temp (.ofLocal "b" .i1))],
      terminator := some (.branch .i1 (.temp (.ofLocal "c" .i1)) "body" "exit"),
      prev := [], succ := [1, 2] },
    { label := "body", phis := [], instrs := [.call none .void "work" []],
      terminator := some (.jump "exit"), prev := [0], succ := [2] },
    { label := "exit", phis := [], instrs := [], terminator := some (.ret none),
      prev := [0, 1], succ := [] }]
  names := .empty

/-- Its guard is the branch of its first block. -/
theorem planeGuard_located :
    (EarlyExit.locate planeKernel (Region.whole planeKernel)
        (planeKernel.domTree .backward).dominates).value =
      some ⟨"entry", "exit", .temp (.ofLocal "c" .i1)⟩ := by
  cbv

theorem planeGuard_understood :
    (EarlyExit.locate planeKernel (Region.whole planeKernel)
        (planeKernel.domTree .backward).dominates).value =
      some ⟨"entry", "exit", .temp (.ofLocal "c" .i1)⟩ ∧
    (conjunctions planeKernel (.temp (.ofLocal "c" .i1))).encard ≤ ((nodeLimit - 1) / 2 : Nat) ∧
    ∃ order after, Descent planeKernel [] (.temp (.ofLocal "c" .i1)) order after ∧
      IsFirstBound planeKernel .standard order
        ⟨.y, .ofLocal "b" .i1, .temp (.ofLocal "m" .i32), "%b = icmp slt i32 %j, %m"⟩ := by
  obtain ⟨meaning, facts⟩ :=
    @understood_iff_conjunction_of_bounds _ .standard _ _ _ planeGuard_located
  have understood : (Analysis.ofRegion planeKernel (Region.whole planeKernel)
      (planeKernel.domTree .backward).dominates .standard).value.status = .understood := by
    rw [Analysis.ofRegion_located planeGuard_located]
    cbv
  obtain ⟨order, after, descent, -, kept⟩ := facts understood
  refine ⟨planeGuard_located, (meaning.mp understood).2, order, after, descent,
    ((kept .y _).mp ?_).2⟩
  rw [Analysis.ofRegion_located planeGuard_located]
  cbv

end KernelGuard.Condition
