import LeftHand.Proofs.Module.History

/-!
Requests of library functions, one after the other and in any order. A function is declared by its
first request and found by every later one, if it is looked for under the name that it was declared
under.
-/

namespace LeftHand

open List

/-- Requests library functions one after the other; a request that fails is no obstacle to the
next. -/
def requestAll : List Libc → Session → List (Except Fault Ir.Global) × Session
  | [], session => ([], session)
  | libc :: calls, session =>
    let (answer, after) := (Build.libc libc).runOn session
    let (answers, final) := requestAll calls after
    (answer :: answers, final)

/-- What requests give, one after the other, behind earlier ones. -/
def answers (earlier : List Libc) : List Libc → List (Except Fault Ir.Global)
  | [] => []
  | libc :: calls =>
    (if libc = .atol ∧ .atol ∈ earlier then .error (.duplicate libc.name) else .ok libc.global) ::
      answers (earlier ++ [libc]) calls

/-- The module behind some requests, with one declaration for each function asked for. -/
def Session.behind (start : Session) (calls : List Libc) : Session :=
  { start with globals := start.globals ++ calls.eraseDups.map Libc.global }

/-- The law of requests: none fails, each gives the declaration that its first one made, and the
module gains one declaration for each function asked for, in the order of the first requests. -/
def Session.KeepsLaw (start : Session) (calls : List Libc) : Prop :=
  requestAll calls start = (calls.map fun libc => .ok libc.global, start.behind calls)

theorem Libc.name_injective : Function.Injective Libc.name := by
  intro one other same
  cases one <;> cases other <;> first | rfl | exact absurd same (by decide)

/-- Nothing is ever declared under the name that the reader of numbers is looked for. -/
theorem Libc.name_eq_soughtName (one other : Libc) :
    one.name = other.soughtName ↔ one = other ∧ other ≠ .atol := by
  cases one <;> cases other <;> decide

section Requests

variable {start session : Session} {libc : Libc}

theorem stopsAt_libc (missing : session.global? libc.soughtName = none)
    (taken : session.isTaken libc.name = true) :
    StopsAt (Build.libc libc) session (.duplicate libc.name) session := by
  refine Gives.stops (gives_get.mpr ⟨rfl, rfl⟩) ?_
  rw [missing]
  refine StopsAt.bind (Gives.stops (gives_get.mpr ⟨rfl, rfl⟩) ?_)
  change StopsAt (if session.isTaken libc.name = true then _ else _) _ _ _
  rw [if_pos taken]
  rfl

/-- One request more declares at most one function more. -/
theorem Session.behind_concat (start : Session) (calls : List Libc) (libc : Libc) :
    start.behind (calls ++ [libc]) =
      if libc ∈ calls then start.behind calls else (start.behind calls).add libc.global := by
  have fresh : [libc].removeAll calls = if libc ∈ calls then [] else [libc] := by
    by_cases again : libc ∈ calls <;> simp [removeAll, again]
  have alone : [libc].eraseDups = [libc] := rfl
  by_cases again : libc ∈ calls <;> simp [behind, add, eraseDups_append, fresh, again, alone]

variable (absent : ∀ libc : Libc, libc.name ∉ start.names ∧ libc.soughtName ∉ start.names)

include absent

/-- The reader of numbers is not found among what was declared, the other functions are. -/
theorem Session.global?_behind (calls : List Libc) (libc : Libc) :
    (start.behind calls).global? libc.soughtName =
      if libc ∈ calls ∧ libc ≠ .atol then some libc.global else none := by
  have missing := Session.global?_eq_none (absent libc).2
  rw [global?] at missing ⊢
  rw [behind, find?_append, missing, Option.none_or, find?_map]
  cases found : calls.eraseDups.find? ((·.name == libc.soughtName) ∘ Libc.global) with
  | none =>
    rw [if_neg fun held => ?_]
    · rfl
    · refine find?_eq_none.mp found libc (mem_eraseDups.mpr held.1) (beq_iff_eq.mpr ?_)
      exact (libc.name_eq_soughtName libc).mpr ⟨rfl, held.2⟩
  | some one =>
    have same := find?_some found
    obtain ⟨rfl, reader⟩ := (one.name_eq_soughtName libc).mp (beq_iff_eq.mp same)
    rw [if_pos ⟨mem_eraseDups.mp (mem_of_find?_eq_some found), reader⟩]
    rfl

theorem Session.isTaken_behind (calls : List Libc) (libc : Libc) :
    (start.behind calls).isTaken libc.name = true ↔ libc ∈ calls := by
  have named : libc.name.isEmpty = false := by cases libc <;> rfl
  have declared : ∀ other : Libc, other.global.name = libc.name ↔ other = libc := fun _ =>
    Libc.name_injective.eq_iff
  rw [isTaken_eq, named, Bool.false_or, contains_iff_mem]
  change libc.name ∈ (_ ++ _ : List Ir.Global).map _ ↔ _
  rw [map_append, mem_append, or_iff_right (by exact (absent libc).1)]
  simp [declared]

/-- What one request does behind others. -/
theorem runOn_libc_behind (calls : List Libc) (libc : Libc) :
    (Build.libc libc).runOn (start.behind calls) =
      (if libc = .atol ∧ .atol ∈ calls then .error (.duplicate libc.name) else .ok libc.global,
        start.behind (calls ++ [libc])) := by
  have sought := Session.global?_behind absent calls libc
  have taken := Session.isTaken_behind absent calls libc
  rw [Session.behind_concat]
  by_cases again : libc ∈ calls
  · rw [if_pos again]
    by_cases reader : libc = .atol
    · rw [if_neg fun held => held.2 reader] at sought
      rw [if_pos ⟨reader, reader ▸ again⟩]
      exact stopsAt_libc sought (taken.mpr again)
    · rw [if_pos ⟨again, reader⟩] at sought
      rw [if_neg fun held => reader held.1]
      exact (gives_libc_found sought).mpr ⟨rfl, rfl⟩
  · have free : (start.behind calls).isTaken libc.name = false :=
      Bool.eq_false_iff.mpr fun held => again (taken.mp held)
    rw [if_neg fun held => again held.1] at sought
    rw [if_neg again, if_neg (by rintro ⟨rfl, held⟩; exact again held)]
    exact (gives_libc_missing sought).mpr ⟨rfl, free, rfl⟩

/-- What requests do one after the other, behind earlier ones. -/
theorem requestAll_behind (earlier calls : List Libc) :
    requestAll calls (start.behind earlier) = (answers earlier calls, start.behind (earlier ++ calls)) := by
  induction calls generalizing earlier with
  | nil =>
    rw [List.append_nil]
    rfl
  | cons libc calls ih =>
    rw [requestAll, runOn_libc_behind absent]
    dsimp only
    rw [ih, append_assoc]
    rfl

omit absent in
/-- All requests give declarations if the reader of numbers is asked for once at most. -/
theorem answers_eq_map_iff (earlier calls : List Libc) :
    answers earlier calls = calls.map (fun libc => .ok libc.global) ↔
      (.atol ∈ earlier → .atol ∉ calls) ∧ calls.count .atol ≤ 1 := by
  induction calls generalizing earlier with
  | nil => simp [answers]
  | cons libc calls ih =>
    rw [answers, map_cons, List.cons.injEq, ih]
    by_cases reader : libc = .atol
    · subst reader
      have once : .atol ∉ calls → calls.count .atol ≤ 1 := fun absent => by simp [count_eq_zero.mpr absent]
      by_cases again : Libc.atol ∈ earlier
      · simp [again]
      · simpa [again, count_eq_zero] using once
    · simp [reader, Ne.symm reader, count_cons_of_ne reader]

/-- In a module that has none of the names under which library functions are declared or looked for,
only a request of the reader of numbers behind another one fails, and it changes nothing. So the law
of requests is kept if and only if that function is asked for at most once. -/
theorem requests_keep_law_iff (calls : List Libc) :
    requestAll calls start = (answers [] calls, start.behind calls) ∧
      (start.KeepsLaw calls ↔ calls.count .atol ≤ 1) := by
  have began : start.behind [] = start := by simp [Session.behind]
  have ran : requestAll calls start = (answers [] calls, start.behind calls) := by
    have := requestAll_behind absent [] calls
    rwa [began, nil_append] at this
  refine ⟨ran, ?_⟩
  rw [Session.KeepsLaw, ran, Prod.mk.injEq, answers_eq_map_iff]
  simp

end Requests

/-- A module with one string constant, and requests of which one is repeated. -/
theorem requests_keep_law_iff_repeated :
    let start : Session := { globals := [.string ".str" [0]] }
    let calls : List Libc := [.puts, .atol, .rand, .puts]
    (∀ libc : Libc, libc.name ∉ start.names ∧ libc.soughtName ∉ start.names) ∧ start.KeepsLaw calls ∧
      ¬start.KeepsLaw (.atol :: calls) := by
  intro start calls
  have absent : ∀ libc : Libc, libc.name ∉ start.names ∧ libc.soughtName ∉ start.names := by
    intro libc
    cases libc <;> decide
  refine ⟨absent, (requests_keep_law_iff absent calls).2.mpr (by decide), fun lawful => ?_⟩
  exact absurd ((requests_keep_law_iff absent (.atol :: calls)).2.mp lawful) (by decide)

/-- The second request of the reader of numbers fails. -/
theorem not_requested_again :
    requestAll [.atol, .atol] {} =
      ([.ok Libc.atol.global, .error (.duplicate "atol")], { globals := [Libc.atol.global] }) := by
  decide

end LeftHand
