import KernelGuard.Proofs.NameLoop
import Mathlib.Data.List.Induction

/-! A supply of names over a whole sequence of requests. As long as the numbers have room, every
request is answered with the least free number above the last one, and no name is handed out
that was registered or handed out before. -/
namespace KernelGuard.NameSupply

/-- What may be asked of a supply. -/
inductive Request where
  | register (name : String)
  | newTemp (type : Ty)
  | newTempFrom (stem : String) (type : Ty)

/-- The stem and the type of the temporary that is asked for. -/
def Request.wanted? : Request → Option (String × Ty)
  | register _ => none
  | newTemp type => some (defaultStem, type)
  | newTempFrom stem type => some (stem, type)

/-- The name that is registered. -/
def Request.registered? : Request → Option String
  | register name => some name
  | newTemp _ | newTempFrom _ _ => none

/-- The temporary that a request is answered with, if any, and the supply behind it. -/
def answer (supply : NameSupply) : Request → Option Temp × NameSupply
  | .register name => (none, supply.register name)
  | .newTemp type => Prod.map some id (supply.fresh defaultStem type)
  | .newTempFrom stem type => Prod.map some id (supply.fresh stem type)

/-- A supply, the names that were registered with it and the temporaries that it handed out. -/
structure Log where
  supply : NameSupply
  registered : List String
  handedOut : List Temp
deriving DecidableEq

/-- What a request leaves behind. -/
def Log.next (log : Log) (request : Request) : Log where
  supply := (log.supply.answer request).2
  registered := log.registered ++ request.registered?.toList
  handedOut := log.handedOut ++ (log.supply.answer request).1.toList

/-- What a sequence of requests to a new supply leaves behind. -/
def after (requests : List Request) : Log := requests.foldl Log.next ⟨.empty, [], []⟩

/-- The answer to a request and the supply behind it, if the loop that makes the name ends. -/
def answer? (supply : NameSupply) (request : Request) : Option (Option Temp × NameSupply) :=
  match request.wanted? with
  | some (stem, _) => (supply.next? stem).map fun _ => supply.answer request
  | none => some (supply.answer request)

/-- The supply behind a sequence of requests, if every loop ends. -/
def after? (requests : List Request) : Option NameSupply :=
  requests.foldlM (fun supply request => (supply.answer? request).map (·.2)) .empty

variable {supply : NameSupply} {request : Request} {stem : String} {type : Ty}

/-! ## Room for a name -/

/-- With room the least free number has 32 bits. -/
theorem HasRoom.fits (room : supply.HasRoom) {least : Nat}
    (first : IsLeast {m | supply.total < m ∧ numbered stem m ∉ supply.used} least) :
    least - supply.total ≤ supply.used.length + 1 ∧ least < UInt32.size := by
  have near : least ≤ supply.total + 1 + supply.used.length :=
    distance_le_of_least first
  unfold HasRoom at room
  omega

/-- With room the loop ends. -/
theorem HasRoom.ends (room : supply.HasRoom) (stem : String) : (supply.next? stem).isSome := by
  obtain ⟨least, first⟩ := exists_least_free stem supply.used supply.total
  rw [next?_of_least first (room.fits first).2]
  rfl

/-- With room a request is answered. -/
theorem answer?_of_room (room : supply.HasRoom) (request : Request) :
    supply.answer? request = some (supply.answer request) := by
  unfold answer?
  split
  · obtain ⟨n, ends⟩ := Option.isSome_iff_exists.mp (room.ends _)
    rw [ends, Option.map_some]
  · rfl

/-! ## Sequences of requests -/

theorem after_concat (requests : List Request) (request : Request) :
    after (requests ++ [request]) = (after requests).next request := by
  rw [after, List.foldl_concat, after]

/-- If there is room at each request, every loop ends. -/
theorem after?_of_room {requests : List Request}
    (room : ∀ earlier, earlier <+: requests → (after earlier).supply.HasRoom) :
    after? requests = some (after requests).supply := by
  induction requests using List.reverseRecOn with
  | nil => rfl
  | append_singleton earlier last ih =>
    have before := ih fun first isPrefix => room first (isPrefix.trans (List.prefix_append _ _))
    rw [after?] at before
    rw [after?, List.foldlM_append, before, Option.bind_eq_bind, Option.bind_some,
      List.foldlM_cons, answer?_of_room (room earlier (List.prefix_append _ _)), after_concat]
    rfl

/-- The names in use are those that were registered or handed out, each once. -/
structure Log.Sound (log : Log) : Prop where
  distinct : log.supply.used.Nodup
  used : ∀ name, name ∈ log.supply.used ↔
    name ∈ log.registered ∨ ∃ temp ∈ log.handedOut, temp.name.spelling = name

/-- A temporary that is handed out is the one name that comes into use. -/
private theorem sound_fresh {log : Log} (sound : log.Sound) (stem : String) (type : Ty) :
    Log.Sound ⟨(log.supply.fresh stem type).2, log.registered,
      log.handedOut ++ [(log.supply.fresh stem type).1]⟩ where
  distinct := sound.distinct.insert
  used name := by
    rw [mem_used_fresh, sound.used, or_comm, or_assoc]
    simp only [List.mem_append, List.mem_singleton, or_and_right, exists_or, exists_eq_left,
      eq_comm (a := name)]

theorem sound_next {log : Log} (sound : log.Sound) (request : Request) :
    (log.next request).Sound := by
  cases request with
  | register name =>
    refine ⟨sound.distinct.insert, fun other => ?_⟩
    simp only [Log.next, answer, register, List.mem_insert_iff, sound.used, Request.registered?,
      Option.toList_some, Option.toList_none, List.append_nil, List.mem_append, List.mem_singleton]
    tauto
  | newTemp type =>
    simpa [Log.next, answer, Request.registered?] using sound_fresh sound defaultStem type
  | newTempFrom stem type =>
    simpa [Log.next, answer, Request.registered?] using sound_fresh sound stem type

theorem sound_after (requests : List Request) : (after requests).Sound := by
  induction requests using List.reverseRecOn with
  | nil => exact ⟨List.nodup_nil, by simp [after, empty]⟩
  | append_singleton earlier last ih => exact after_concat earlier last ▸ sound_next ih last

/-! ## Names that are generated -/

/-- A request for a temporary is answered with a fresh one. -/
theorem answer_of_wanted (wanted : request.wanted? = some (stem, type)) :
    supply.answer request = Prod.map some id (supply.fresh stem type) := by
  cases request with
  | register name => cases wanted
  | newTemp type => cases wanted; rfl
  | newTempFrom stem type => cases wanted; rfl

/-- Whatever was asked of a supply before, as long as numbers have room it answers with the least
number above the last one whose name is not in use. The loop finds that number, in no more rounds
than there are names in use and one more, and nothing has its name yet: neither a name that was
registered nor a temporary that was handed out, under whatever stem. With room at each request
all the loops before have ended too. -/
theorem generated_names_never_repeat (requests : List Request)
    (wanted : request.wanted? = some (stem, type)) (room : (after requests).supply.HasRoom) :
    let log := after requests
    let supply := log.supply
    (supply.used.Nodup ∧ ∀ name, name ∈ supply.used ↔
      name ∈ log.registered ∨ ∃ temp ∈ log.handedOut, temp.name.spelling = name) ∧
    ((∀ earlier, earlier <+: requests → (after earlier).supply.HasRoom) →
      after? requests = some supply) ∧
    ∃ n, IsLeast {m | supply.total < m ∧ numbered stem m ∉ supply.used} n ∧
      supply.answer request = (some (.ofLocal (numbered stem n) type),
        ⟨.ofNat n, supply.used.insert (numbered stem n)⟩) ∧
      ((∀ rounds, search stem supply.used rounds supply.counter =
          if n - supply.total ≤ rounds then some (.ofNat n) else none) ∧
        n - supply.total ≤ supply.used.length + 1 ∧ (UInt32.ofNat n).toNat = n) ∧
      (∀ name ∈ log.registered, name ≠ numbered stem n) ∧
      ∀ temp ∈ log.handedOut, temp.name.spelling ≠ numbered stem n := by
  intro log supply
  have sound : log.Sound := sound_after requests
  obtain ⟨n, least⟩ := exists_least_free stem supply.used supply.total
  obtain ⟨near, fits⟩ := room.fits least
  have answered : supply.answer request = (some (.ofLocal (numbered stem n) type),
      ⟨.ofNat n, supply.used.insert (numbered stem n)⟩) := by
    rw [answer_of_wanted wanted, fresh_of_next? (next?_of_least least fits),
      UInt32.toNat_ofNat_of_lt' fits]
    rfl
  refine ⟨⟨sound.distinct, sound.used⟩, after?_of_room, n, least, answered,
    ⟨search_of_least least fits, near, UInt32.toNat_ofNat_of_lt' fits⟩, ?_, ?_⟩
  · rintro name registered rfl
    exact least.1.2 ((sound.used _).mpr (.inl registered))
  · intro temp given same
    exact least.1.2 ((sound.used _).mpr (.inr ⟨temp, given, same⟩))

/-- A supply that has been asked for names that look like generated ones passes over them, also
under a stem with a dot. -/
theorem generated_name_after_lookalikes :
    let requests : List Request := [.register "t.1", .newTemp .i32, .register "t.1.3"]
    let request : Request := .newTempFrom "t.1" .i64
    request.wanted? = some ("t.1", .i64) ∧ (after requests).supply.HasRoom ∧
      (after requests).handedOut = [.ofLocal "t.2" .i32] ∧
      (after requests).supply.answer request =
        (some (.ofLocal "t.1.4" .i64), ⟨4, ["t.1.4", "t.1.3", "t.2", "t.1"]⟩) := by
  intro requests request
  have left : after requests =
      ⟨⟨2, ["t.1.3", "t.2", "t.1"]⟩, ["t.1", "t.1.3"], [.ofLocal "t.2" .i32]⟩ := by decide +kernel
  have room : (after requests).supply.HasRoom := by
    rw [left]
    decide
  obtain ⟨-, -, n, least, answered, -⟩ :=
    generated_names_never_repeat requests (show request.wanted? = some ("t.1", .i64) from rfl) room
  rw [left] at least answered
  refine ⟨rfl, room, by rw [left], ?_⟩
  have fourth : IsLeast {m | 2 < m ∧ numbered "t.1" m ∉ ["t.1.3", "t.2", "t.1"]} 4 := by
    refine ⟨by decide, ?_⟩
    rintro m ⟨above, free⟩
    by_contra below
    obtain rfl : m = 3 := by omega
    exact free (by decide)
  obtain rfl : n = 4 := least.unique fourth
  rw [left, answered]
  decide

end KernelGuard.NameSupply
