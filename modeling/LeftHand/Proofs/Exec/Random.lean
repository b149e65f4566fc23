import LeftHand.Proofs.Exec.Machine
import LeftHand.Proofs.Lower.Function
import LeftHand.Proofs.Lower.Program

/-! The random numbers of the language. -/

namespace LeftHand

open Ir List

variable {up count : Nat} {draws : Fin 5 → BitVec 32}

namespace Ir

/-- The call that draws a number. -/
def drawCall : Call :=
  ⟨Libc.rand.name, []⟩

/-- The calls that draw numbers are answered with these, one after the other. What the answers
depend on, and what the calls do to memory, is left open. -/
def Oracle.Deals (oracle : Oracle) : List Call → Memory → List (BitVec 32) → Prop
  | _, _, [] => True
  | calls, memory, draw :: draws =>
    (oracle calls drawCall memory).1.setWidth 32 = draw ∧
      oracle.Deals (calls ++ [drawCall]) (oracle calls drawCall memory).2 draws

/-- A left shift loses no bit: shifted back, there is what was there before. -/
def Instr.KeepsBits (instr : Instr) (machine : Machine) : Prop :=
  ∀ lhs rhs, instr.operation = .arith .shl lhs rhs → ∃ (bits : Nat) (value amount : BitVec bits),
    lhs.word? machine.registers = some (.int bits value) ∧
      rhs.word? machine.registers = some (.int bits amount) ∧
      (value <<< amount.toNat) >>> amount.toNat = value

/-- No left shift on the way through the code loses a bit. -/
def KeepsBits (oracle : Oracle) : List Instr → Machine → Prop
  | [], _ => True
  | instr :: code, machine =>
    instr.KeepsBits machine ∧ ∀ next, instr.exec oracle machine = some next → KeepsBits oracle code next

/-- What a block gives that returns a value. -/
def Block.result? (oracle : Oracle) (block : Block) (machine : Machine) : Option Word := do
  let final ← run oracle block.code machine
  match block.exit with
  | some (.ret value) => value.word? final.registers
  | _ => none

/-- Code runs and loses no bits, and behind it the machine is as told. -/
def Reaches (oracle : Oracle) (code : List Instr) (machine : Machine) (told : Machine → Prop) : Prop :=
  KeepsBits oracle code machine ∧ ∃ final, run oracle code machine = some final ∧ told final

/-- Any numbers can be dealt. -/
theorem exists_deals (calls : List Call) (memory : Memory) (draws : List (BitVec 32)) :
    ∃ oracle : Oracle, oracle.Deals calls memory draws := by
  -- How many numbers have been drawn is told by the calls on record.
  let oracle : Oracle := fun earlier _ memory =>
    ((draws[earlier.length - calls.length]?.getD 0).setWidth 64, memory)
  suffices deals : ∀ (rest : List (BitVec 32)) (earlier : List Call) (drawn : Nat),
      earlier.length = calls.length + drawn → draws.drop drawn = rest →
        oracle.Deals earlier memory rest from ⟨oracle, deals draws calls 0 rfl rfl⟩
  intro rest
  induction rest with
  | nil => exact fun _ _ _ _ => trivial
  | cons draw rest ih =>
    intro earlier drawn counted left
    refine ⟨?_, ih _ (drawn + 1) (by simp [counted]; omega) ?_⟩
    · have next : draws[drawn]? = some draw := by
        rw [← Nat.add_zero drawn, ← getElem?_drop, left]
        rfl
      simp [oracle, counted, next]
    · rw [← drop_drop, left]
      rfl

end Ir

/-- The random function can be added: its name is free, and if the function that draws numbers is
there already, it is declared as in the library. -/
structure Session.TakesRandom (session : Session) : Prop where
  free : session.isTaken (functionName Predefined.random.name) = false
  library : ∀ global, session.global? Libc.rand.name = some global →
    ∃ function, global = .function function ∧ function.signature = Libc.rand.signature

/-- The random function of a module takes nothing, gives a number, and is one block. -/
def Session.HasRandom (session : Session) (block : Ir.Block) : Prop :=
  ∃ function, session.global? (functionName Predefined.random.name) = some (.function function) ∧
    function.signature = ⟨.i64, [], false⟩ ∧ function.blocks = [block]

/-- The number that a block gives wherever these numbers are drawn. -/
def Ir.Block.Yields (block : Ir.Block) (draws : Fin 5 → BitVec 32) (value : BitVec 64) : Prop :=
  ∀ oracle machine, Ir.Oracle.Deals oracle machine.calls machine.memory (List.ofFn draws) →
    block.result? oracle machine = some (.int 64 value)

/-- The bits of a draw that are used. -/
def lowBits (draw : BitVec 32) : BitVec 64 :=
  (draw &&& 0x7fff).setWidth 64

/-- The number that is made of five draws. -/
def assemble (draws : Fin 5 → BitVec 32) : BitVec 64 :=
  lowBits (draws 0) <<< 48 ||| (lowBits (draws 1) <<< 35 |||
    (lowBits (draws 2) <<< 22 ||| (lowBits (draws 3) <<< 9 ||| lowBits (draws 4) >>> 4)))

section Bits

variable {draw : BitVec 32} {draws : Fin 5 → BitVec 32}

theorem getLsbD_lowBits (draw : BitVec 32) (j : Nat) :
    (lowBits draw).getLsbD j = (decide (j < 15) && draw.getLsbD j) := by
  have mask : (0x7fff : BitVec 32).getLsbD j = decide (j < 15) := by
    change Nat.testBit (2 ^ 15 - 1) j = decide (j < 15)
    exact Nat.testBit_two_pow_sub_one 15 j
  rw [lowBits, BitVec.getLsbD_setWidth, BitVec.getLsbD_and, mask, Bool.and_comm (draw.getLsbD j)]
  by_cases low : j < 15
  · simp [low, show j < 64 by omega]
  · simp [low]

theorem getLsbD_moved (within : up ≤ 49) (p : Nat) :
    (lowBits draw <<< up).getLsbD p = true ↔ ∃ j : Fin 15, p = up + j ∧ draw.getLsbD j = true := by
  simp only [BitVec.getLsbD_shiftLeft, getLsbD_lowBits, Bool.and_eq_true, Bool.not_eq_true',
    decide_eq_true_eq, decide_eq_false_iff_not]
  constructor
  · rintro ⟨⟨_, above⟩, low, set⟩
    exact ⟨⟨p - up, low⟩, by dsimp only; omega, set⟩
  · rintro ⟨j, rfl, set⟩
    have := j.isLt
    rw [show up + j - up = j by omega]
    exact ⟨⟨by omega, by omega⟩, j.isLt, set⟩

theorem getLsbD_sunk (p : Nat) :
    (lowBits draw >>> 4).getLsbD p = true ↔ ∃ j : Fin 15, p + 4 = j ∧ draw.getLsbD j = true := by
  simp only [BitVec.getLsbD_ushiftRight, getLsbD_lowBits, Bool.and_eq_true, decide_eq_true_eq]
  constructor
  · rintro ⟨low, set⟩
    exact ⟨⟨4 + p, low⟩, Nat.add_comm .., set⟩
  · rintro ⟨j, here, set⟩
    rw [Nat.add_comm, here]
    exact ⟨j.isLt, set⟩

/-- Shifted up and back, a draw is as it was. -/
theorem lowBits_shift (within : up ≤ 49) :
    (lowBits draw <<< up) >>> up = lowBits draw := by
  refine BitVec.eq_of_getLsbD_eq fun p _ => ?_
  rw [BitVec.getLsbD_ushiftRight, Bool.eq_iff_iff, getLsbD_moved within, getLsbD_lowBits,
    Bool.and_eq_true, decide_eq_true_eq]
  constructor
  · rintro ⟨j, here, set⟩
    obtain rfl : p = j := by omega
    exact ⟨j.isLt, set⟩
  · rintro ⟨low, set⟩
    exact ⟨⟨p, low⟩, rfl, set⟩

/-- Where the bits of the draws go. -/
theorem getLsbD_assemble (draws : Fin 5 → BitVec 32) (p : Nat) :
    (assemble draws).getLsbD p = true ↔
      ∃ (i : Fin 5) (j : Fin 15), p + 13 * i = 48 + j ∧ (draws i).getLsbD j = true := by
  simp only [assemble, BitVec.getLsbD_or, Bool.or_eq_true, getLsbD_moved (show 48 ≤ 49 by decide),
    getLsbD_moved (show 35 ≤ 49 by decide), getLsbD_moved (show 22 ≤ 49 by decide),
    getLsbD_moved (show 9 ≤ 49 by decide), getLsbD_sunk]
  constructor
  · rintro (⟨j, here, set⟩ | ⟨j, here, set⟩ | ⟨j, here, set⟩ | ⟨j, here, set⟩ | ⟨j, here, set⟩)
    · exact ⟨0, j, by simpa using here, set⟩
    · exact ⟨1, j, by simp; omega, set⟩
    · exact ⟨2, j, by simp; omega, set⟩
    · exact ⟨3, j, by simp; omega, set⟩
    · exact ⟨4, j, by simp; omega, set⟩
  · rintro ⟨i, j, here, set⟩
    fin_cases i
    · exact .inl ⟨j, by simpa using here, set⟩
    · exact .inr (.inl ⟨j, by simp at here; omega, set⟩)
    · exact .inr (.inr (.inl ⟨j, by simp at here; omega, set⟩))
    · exact .inr (.inr (.inr (.inl ⟨j, by simp at here; omega, set⟩)))
    · exact .inr (.inr (.inr (.inr ⟨j, by simp at here; omega, set⟩)))

theorem assemble_nonneg (draws : Fin 5 → BitVec 32) : 0 ≤ (assemble draws).toInt := by
  have unsigned : (assemble draws).msb = false := by
    rw [BitVec.msb_eq_getLsbD_last, Bool.eq_false_iff, ne_eq, getLsbD_assemble]
    rintro ⟨i, j, here, _⟩
    omega
  rw [BitVec.toInt_eq_msb_cond, unsigned]
  exact Int.natCast_nonneg _

theorem exists_place : ∀ p < 63, ∃ (i : Fin 5) (j : Fin 15), p + 13 * i.val = 48 + j.val := by
  decide

/-- Every number that is not negative is made of some draws: each has the bits that go to its
places. -/
theorem exists_assemble {value : Nat} (small : value < 2 ^ 63) :
    ∃ draws, assemble draws = BitVec.ofNat 64 value := by
  -- Where two draws reach a place, both have its bit.
  let draws (i : Fin 5) : BitVec 32 := BitVec.ofNat 32 ((value <<< 4) >>> (52 - 13 * i.val))
  have bits (i : Fin 5) (j : Fin 15) {p : Nat} (here : p + 13 * i.val = 48 + j.val) :
      (draws i).getLsbD j = value.testBit p := by
    rw [BitVec.getLsbD_ofNat, Nat.testBit_shiftRight, Nat.testBit_shiftLeft]
    simp [show (j : Nat) < 32 by omega, show 4 ≤ 52 - 13 * i.val + j by omega,
      show 52 - 13 * i.val + j - 4 = p by omega]
  refine ⟨draws, BitVec.eq_of_getLsbD_eq fun p within => ?_⟩
  rw [Bool.eq_iff_iff, getLsbD_assemble, BitVec.getLsbD_ofNat, decide_eq_true within, Bool.true_and]
  constructor
  · rintro ⟨i, j, here, set⟩
    rwa [bits i j here] at set
  · intro set
    have below : p < 63 := by
      by_contra beyond
      have large := Nat.ge_two_pow_of_testBit set
      have := Nat.pow_le_pow_right (show 0 < 2 by decide) (show 63 ≤ p by omega)
      omega
    obtain ⟨i, j, here⟩ := exists_place p below
    exact ⟨i, j, here, by rwa [bits i j here]⟩

end Bits

section Code

/-- The code of a draw, with the registers that it writes. -/
def drawCode (drawn low wide : String) : List Instr :=
  [⟨drawn, .call Libc.rand.name Libc.rand.signature []⟩,
    ⟨low, .arith .and (.register drawn .i32) (.int 32 0x7fff)⟩,
    ⟨wide, .cast .zext (.register low .i32) .i64⟩]

/-- The code that makes a number of five draws: all are moved, and then put together from the lowest
place up. -/
def joinCode : List Instr :=
  [⟨".17", .arith .shl (.register ".4" .i64) (.int 64 48)⟩,
    ⟨".18", .arith .shl (.register ".7" .i64) (.int 64 35)⟩,
    ⟨".19", .arith .shl (.register ".10" .i64) (.int 64 22)⟩,
    ⟨".20", .arith .shl (.register ".13" .i64) (.int 64 9)⟩,
    ⟨".21", .arith .lshr (.register ".16" .i64) (.int 64 4)⟩,
    ⟨".22", .arith .or (.register ".20" .i64) (.register ".21" .i64)⟩,
    ⟨".23", .arith .or (.register ".19" .i64) (.register ".22" .i64)⟩,
    ⟨".24", .arith .or (.register ".18" .i64) (.register ".23" .i64)⟩,
    ⟨".25", .arith .or (.register ".17" .i64) (.register ".24" .i64)⟩]

/-- The block of the random function. -/
def randomBlock : Ir.Block where
  label := "entry"
  code := drawCode ".2" ".3" ".4" ++ (drawCode ".5" ".6" ".7" ++ (drawCode ".8" ".9" ".10" ++
    (drawCode ".11" ".12" ".13" ++ (drawCode ".14" ".15" ".16" ++ joinCode))))
  exit := some (.ret (.register ".25" .i64))

/-- The register of an instruction of the random function. -/
abbrev slot (count : Nat) : String :=
  Scope.numbered "" (count + 2)

/-- The names that are taken behind some instructions of the random function. -/
def randomScope (count : Nat) : Scope :=
  ((Ir.Function.declare (functionName Predefined.random.name) ⟨.i64, [], false⟩).scope.takeAll
    ("entry" :: replicate count "")).2

/-- The random function, with some instructions. -/
def randomFunction (count : Nat) (block : Ir.Block) : Ir.Function :=
  { Ir.Function.declare (functionName Predefined.random.name) ⟨.i64, [], false⟩ with
    blocks := [block]
    scope := randomScope count }

variable {oracle : Ir.Oracle} {code : List Instr} {machine next : Machine} {told : Machine → Prop}
  {session : Session}

theorem Ir.Reaches.cons {instr : Instr} (executed : instr.exec oracle machine = some next)
    (keeps : instr.KeepsBits machine) (rest : Reaches oracle code next told) :
    Reaches oracle (instr :: code) machine told := by
  refine ⟨⟨keeps, fun other stepped => ?_⟩, by simpa [run, executed] using rest.2⟩
  cases executed.symm.trans stepped
  exact rest.1

theorem Ir.Reaches.arith {name : String} {op : Arith} {lhs rhs : Value} {bits : Nat}
    {first second result : BitVec bits}
    (lhsHeld : lhs.word? machine.registers = some (.int bits first))
    (rhsHeld : rhs.word? machine.registers = some (.int bits second))
    (applied : op.apply first second = some result)
    (keeps : op = .shl → (first <<< second.toNat) >>> second.toNat = first)
    (rest : Reaches oracle code (machine.put name (.int bits result)) told) :
    Reaches oracle (⟨name, .arith op lhs rhs⟩ :: code) machine told := by
  refine .cons (by simp [Instr.exec, word?_arith op lhsHeld rhsHeld, applied]) ?_ rest
  rintro _ _ ⟨⟩
  exact ⟨bits, first, second, lhsHeld, rhsHeld, keeps rfl⟩

/-- A draw and what is done with it leave its low bits in a register. -/
theorem Ir.Reaches.draw {draw : BitVec 32} {draws : List (BitVec 32)} {drawn low wide : String}
    (deals : oracle.Deals machine.calls machine.memory (draw :: draws))
    (rest : ∀ next : Machine, oracle.Deals next.calls next.memory draws →
      next.registers wide = some (.int 64 (lowBits draw)) →
        (∀ name, name ∉ [drawn, low, wide] → next.registers name = machine.registers name) →
          Reaches oracle code next told) :
    Reaches oracle (drawCode drawn low wide ++ code) machine told := by
  obtain ⟨rfl, deals⟩ := deals
  have held {machine : Machine} {name : String} {word : Word} {type : Ty} :
      (Value.register name type).word? (machine.put name word).registers = some word := if_pos rfl
  have widened {machine : Machine} {bits : BitVec 32} :
      Instr.exec oracle ⟨wide, .cast .zext (.register low .i32) .i64⟩ (machine.put low (.int 32 bits)) =
        some ((machine.put low (.int 32 bits)).put wide (.int 64 (bits.setWidth 64))) := by
    simp [Instr.exec, Operation.word?, held, Word.cast?]
  refine .cons rfl (by rintro _ _ ⟨⟩) (.arith held rfl rfl (by rintro ⟨⟩) ?_)
  refine .cons widened (by rintro _ _ ⟨⟩) (rest _ deals (if_pos rfl) fun name outside => ?_)
  simp only [mem_cons, not_mem_nil, or_false, not_or] at outside
  simp [Machine.put, outside]

theorem reaches_joinCode (a : machine.registers ".4" = some (.int 64 (lowBits (draws 0))))
    (b : machine.registers ".7" = some (.int 64 (lowBits (draws 1))))
    (c : machine.registers ".10" = some (.int 64 (lowBits (draws 2))))
    (d : machine.registers ".13" = some (.int 64 (lowBits (draws 3))))
    (e : machine.registers ".16" = some (.int 64 (lowBits (draws 4)))) :
    Reaches oracle joinCode machine fun final =>
      final.registers ".25" = some (.int 64 (assemble draws)) := by
  refine .arith a rfl rfl (fun _ => lowBits_shift (by decide)) ?_
  refine .arith b rfl rfl (fun _ => lowBits_shift (by decide)) ?_
  refine .arith c rfl rfl (fun _ => lowBits_shift (by decide)) ?_
  refine .arith d rfl rfl (fun _ => lowBits_shift (by decide)) ?_
  refine .arith e rfl rfl (by rintro ⟨⟩) ?_
  -- Each operand is in a register that was written above.
  refine .arith rfl rfl rfl (by rintro ⟨⟩) <| .arith rfl rfl rfl (by rintro ⟨⟩) ?_
  refine .arith rfl rfl rfl (by rintro ⟨⟩) <| .arith rfl rfl rfl (by rintro ⟨⟩) ?_
  exact ⟨trivial, _, rfl, rfl⟩

/-- The code of the random function makes a number of five draws, and loses no bits. -/
theorem reaches_randomBlock (deals : oracle.Deals machine.calls machine.memory (List.ofFn draws)) :
    Reaches oracle randomBlock.code machine fun final =>
      final.registers ".25" = some (.int 64 (assemble draws)) := by
  refine .draw deals fun _ deals a _ => .draw deals fun _ deals b kept => ?_
  rw [← kept _ (by decide)] at a
  refine .draw deals fun _ deals c kept => ?_
  rw [← kept _ (by decide)] at a b
  refine .draw deals fun _ deals d kept => ?_
  rw [← kept _ (by decide)] at a b c
  refine .draw deals fun _ _ e kept => ?_
  rw [← kept _ (by decide)] at a b c d
  exact reaches_joinCode a b c d e

theorem yields_randomBlock (draws : Fin 5 → BitVec 32) : randomBlock.Yields draws (assemble draws) := by
  intro oracle machine deals
  obtain ⟨_, final, ran, given⟩ := reaches_randomBlock deals
  rw [Ir.Block.result?, ran]
  exact given

theorem take_randomScope : ∀ count < 25, (randomScope count).take "" =
    (slot count, randomScope (count + 1)) := by
  decide +kernel

/-- The function while it is written into a module. -/
def randomDraft (session : Session) (count : Nat) (code : List Instr) : Draft :=
  { session, function := randomFunction count { label := "entry", code } }

theorem gives_next (few : count < 25) (code : List Instr) (operation : Operation) :
    Gives (Emit.instr "" operation) (randomDraft session count code)
      (.register (slot count) operation.type)
      (randomDraft session (count + 1) (code ++ [⟨slot count, operation⟩])) := by
  have taken := take_randomScope count few
  refine gives_instr.mpr ⟨?_, ?_⟩
  · change _ = Value.register ((randomScope count).take "").1 _
    rw [taken]
  · simp only [Draft.write, Draft.take, Draft.named, randomDraft, randomFunction, taken]
    rfl

theorem gives_randomBits {rand : Ir.Function} (named : rand.name = Libc.rand.name)
    (signature : rand.signature = Libc.rand.signature) (few : count < 23) (code : List Instr) :
    Gives (Predefined.randomBits (.function rand)) (randomDraft session count code)
      (.register (slot (count + 2)) .i64)
      (randomDraft session (count + 3) (code ++ drawCode (slot count) (slot (count + 1))
        (slot (count + 2)))) := by
  cases rand
  subst named signature
  rw [drawCode, append_cons, append_cons (code ++ _)]
  exact gives_bind.mpr ⟨_, _, gives_next (by omega) _ _,
    gives_bind.mpr ⟨_, _, gives_next (by omega) _ _, gives_next (by omega) _ (.cast .zext _ .i64)⟩⟩

/-- The function is written in one way, whatever the module is. -/
theorem gives_random {between : Session} {rand : Ir.Function}
    (declared : Gives (Build.libc .rand) session (.function rand) between)
    (named : rand.name = Libc.rand.name) (signature : rand.signature = Libc.rand.signature)
    (free : between.isTaken (functionName Predefined.random.name) = false) :
    Gives Predefined.random.add session () (between.add (.function (randomFunction 25 randomBlock))) := by
  refine gives_bind.mpr ⟨_, _, declared,
    gives_define.mpr ⟨free, ⟨between, randomFunction 25 randomBlock, 0, []⟩, ?_, rfl⟩⟩
  change Gives _ (randomDraft between 0 []) _ _
  iterate 5 refine gives_bind.mpr ⟨_, _, gives_randomBits named signature (by decide) _, ?_⟩
  iterate 9 refine gives_bind.mpr ⟨_, _, gives_next (by decide) _ _, ?_⟩
  refine gives_exit.mpr ⟨rfl, ?_⟩
  have taken := take_randomScope 24 (by decide)
  simp only [Draft.finish, Draft.take, randomDraft, randomFunction, taken]
  rfl

variable (takes : session.TakesRandom)

include takes

theorem Session.TakesRandom.exists_rand : ∃ rand between,
    Gives (Build.libc .rand) session (.function rand) between ∧ rand.name = Libc.rand.name ∧
      rand.signature = Libc.rand.signature ∧
      between.isTaken (functionName Predefined.random.name) = false := by
  cases found : session.global? Libc.rand.name with
  | some global =>
    obtain ⟨rand, rfl, signature⟩ := takes.library _ found
    have named : rand.name = Libc.rand.name := by simpa using find?_some found
    exact ⟨rand, session, (gives_libc_found found).mpr ⟨rfl, rfl⟩, named, signature, takes.free⟩
  | none =>
    have free : session.isTaken Libc.rand.name = false := by
      rw [isTaken, Bool.or_eq_false_iff, any_eq_false]
      exact ⟨by decide, find?_eq_none.mp found⟩
    refine ⟨_, _, (gives_libc_missing found).mpr ⟨rfl, free, rfl⟩, rfl, rfl, ?_⟩
    rw [isTaken, add, any_append, ← Bool.or_assoc, ← isTaken, takes.free]
    decide

theorem Session.TakesRandom.exists_random : ∃ after,
    Gives Predefined.random.add session () after ∧ after.HasRandom randomBlock := by
  obtain ⟨rand, between, declared, named, signature, free⟩ := takes.exists_rand
  refine ⟨_, gives_random declared named signature free, randomFunction 25 randomBlock, ?_, rfl, rfl⟩
  -- Nothing before the function has its name.
  have before : between.globals.find? (·.name == functionName Predefined.random.name) = none := by
    rw [find?_eq_none]
    rw [isTaken, Bool.or_eq_false_iff, any_eq_false] at free
    exact free.2
  rw [global?, add, find?_append, before]
  rfl

end Code

section Main

variable {session : Session}

/-- The random function can be added wherever its name is free. Whatever five numbers are drawn, it
gives a number that is not negative, and no left shift loses a bit on the way; and for every number
that is not negative there are five draws that give it. -/
theorem random_covers_range (takes : session.TakesRandom) : ∃ after block,
    Gives Predefined.random.add session () after ∧ after.HasRandom block ∧
      (∀ draws, ∃ value : BitVec 64, block.Yields draws value ∧
        0 ≤ value.toInt ∧ value.toInt ≤ 2 ^ 63 - 1) ∧
      (∀ (draws : Fin 5 → BitVec 32) oracle machine,
        Ir.Oracle.Deals oracle machine.calls machine.memory (List.ofFn draws) →
          Ir.KeepsBits oracle block.code machine) ∧
      ∀ value : Int, 0 ≤ value → value ≤ 2 ^ 63 - 1 →
        ∃ draws, block.Yields draws (BitVec.ofInt 64 value) := by
  obtain ⟨after, added, has⟩ := takes.exists_random
  refine ⟨after, randomBlock, added, has, fun draws => ?_,
    fun draws oracle machine deals => (reaches_randomBlock deals).1, fun value low high => ?_⟩
  · have above : (assemble draws).toInt < 2 ^ 63 := BitVec.toInt_lt
    exact ⟨assemble draws, yields_randomBlock draws, assemble_nonneg draws, by omega⟩
  · obtain ⟨number, rfl⟩ := Int.eq_ofNat_of_zero_le low
    obtain ⟨draws, same⟩ := exists_assemble (show number < 2 ^ 63 by omega)
    exact ⟨draws, by simpa [same] using yields_randomBlock draws⟩

/-- A module in which the library's functions for random numbers are declared already. -/
def declaredRandom : Session :=
  { globals := [Libc.srand, Libc.rand].map fun libc => .function (.declare libc.name libc.signature) }

theorem takesRandom_declaredRandom : declaredRandom.TakesRandom := by
  refine ⟨rfl, fun global found => ?_⟩
  cases found
  exact ⟨_, rfl, rfl⟩

/-- The largest number can be drawn there, too. -/
theorem random_covers_range_largest : declaredRandom.TakesRandom ∧ ∃ after block,
    Gives Predefined.random.add declaredRandom () after ∧ after.HasRandom block ∧
      ∃ draws, block.Yields draws (BitVec.ofInt 64 (2 ^ 63 - 1)) := by
  obtain ⟨after, block, added, has, _, _, covered⟩ := random_covers_range takesRandom_declaredRandom
  exact ⟨takesRandom_declaredRandom, after, block, added, has,
    covered (2 ^ 63 - 1) (by decide) (by decide)⟩

end Main

end LeftHand
