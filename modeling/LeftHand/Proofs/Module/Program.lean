import LeftHand.Proofs.Module.Predefined

/-!
Modules of whole programs: every function of the program has its code there, typed against the
functions of the module, also where the start function has got the calls that seed the random
numbers.
-/

namespace LeftHand

open Ir List

variable {earlier before after : Session} {declares : String → Signature → Prop}
  {code : Ir.Function} {first second : Operation}

section Declares

variable {globals more : List Global} {name : String} {signature : Signature}

/-- A module in which a function of some name and signature stands. -/
def Ir.Declares (globals : List Global) (name : String) (signature : Signature) : Prop :=
  ∃ code, .function code ∈ globals ∧ code.name = name ∧ code.signature = signature

theorem Ir.Declares.mono (subset : globals ⊆ more) (declared : Ir.Declares globals name signature) :
    Ir.Declares more name signature := by
  obtain ⟨code, member, rest⟩ := declared
  exact ⟨code, subset member, rest⟩

end Declares

variable {isVerbose : Bool} {function : Function}

theorem Function.Becomes.mono {more : String → Signature → Prop} {opened : Draft}
    (becomes : function.Becomes isVerbose declares opened code)
    (declared : ∀ callee signature, declares callee signature → more callee signature) :
    function.Becomes isVerbose more opened code := by
  obtain ⟨ended, env, start, params, places⟩ := becomes
  refine ⟨ended, env, start, params, fun scope point begins => ?_⟩
  obtain ⟨known, assembled, place⟩ := places scope point begins
  exact ⟨known, assembled.mono (fun _ typed => typed.mono declared) fun _ typed => typed, place⟩

/-- The code of a function in a module; it was begun when the module was an earlier one. -/
structure Function.StandsIn (isVerbose : Bool) (function : Function) (earlier : Session)
    (globals : List Global) (code : Ir.Function) : Prop where
  member : .function code ∈ globals
  named : code.name = functionName function.ident.text
  becomes : ∃ signature, function.signature = .ok signature ∧
    function.Becomes isVerbose (Ir.Declares globals)
      (.opening earlier (functionName function.ident.text) signature) code

theorem Function.StandsIn.mono {globals more : List Global}
    (stands : function.StandsIn isVerbose earlier globals code) (subset : globals ⊆ more) :
    function.StandsIn isVerbose earlier more code := by
  obtain ⟨member, named, signature, typed, becomes⟩ := stands
  exact ⟨subset member, named, signature, typed, becomes.mono fun _ _ => .mono subset⟩

/-- A function that is built stands in the module, which keeps what it had. -/
theorem Session.Sound.build_function (sound : before.Sound)
    (built : Gives (Build.function isVerbose function) before () after) :
    after.Sound ∧ before.globals ⊆ after.globals ∧
      ∃ code, function.StandsIn isVerbose before after.globals code := by
  obtain ⟨signature, typed, free, final, written, rfl⟩ := gives_function.mp built
  obtain ⟨start, log, derived⟩ := gives_lowerFunctionBody.mp written
  have grown := derived.grows
  have subset : before.globals ⊆ final.close.globals := by
    rw [derived.globals_close]
    exact subset_append_left _ _
  have member : .function final.function ∈ final.close.globals := by
    rw [derived.globals_close]
    exact mem_append_right _ mem_cons_self
  -- The function can call those before it, and itself.
  have calls : (Draft.opening before (functionName function.ident.text) signature).Calls
      (Ir.Declares final.close.globals) := by
    intro code found
    rcases mem_append.mp found with earlier | own
    · exact ⟨⟨code, subset earlier, rfl, rfl⟩, sound.counts code earlier⟩
    · cases mem_singleton.mp own
      refine ⟨⟨_, member, grown.name, grown.signature⟩, ?_⟩
      simp [Draft.opening, Draft.grow, Ir.Function.declare]
  -- The same steps show that the code is well assembled and that it is what was to be written.
  obtain ⟨⟨known, steps⟩, becomes⟩ := derived.becomes calls
  have assembled := (Chart.Steps.sound steps (Chart.sound_opening ..)).assembled
  have finished : final.function.Finished :=
    ⟨⟨known, assembled.mono (fun _ _ => trivial) fun _ _ => trivial⟩, becomes.ended⟩
  exact ⟨sound.close free steps finished (functionName_ne_name _), subset, _, member, grown.name,
    signature, typed, becomes⟩

theorem Session.Sound.build_functions {functions : List Function} (sound : before.Sound)
    (built : Gives (functions.forM (Build.function isVerbose)) before () after) :
    after.Sound ∧ before.globals ⊆ after.globals ∧
      ∀ front function back, functions = front ++ function :: back → ∃ earlier code,
        Gives (front.forM (Build.function isVerbose)) before () earlier ∧
          function.StandsIn isVerbose earlier after.globals code := by
  -- Each function is built into the module that those before it have left.
  induction functions generalizing before with
  | nil =>
    obtain ⟨_, rfl⟩ := gives_pure.mp built
    exact ⟨sound, List.Subset.refl _, by simp⟩
  | cons first rest ih =>
    obtain ⟨_, between, firstBuilt, restBuilt⟩ := gives_bind.mp built
    obtain ⟨betweenSound, kept, code, stands⟩ := sound.build_function firstBuilt
    obtain ⟨afterSound, restKept, others⟩ := ih betweenSound restBuilt
    refine ⟨afterSound, List.Subset.trans kept restKept, fun front function back split => ?_⟩
    -- It is the first function, or one behind it.
    rcases cons_eq_append_iff.mp split with ⟨rfl, same⟩ | ⟨front, rfl, same⟩
    · cases same
      exact ⟨before, code, gives_pure.mpr ⟨rfl, rfl⟩, stands.mono restKept⟩
    · obtain ⟨earlier, code, earlierBuilt, stands⟩ := others front function back same
      exact ⟨earlier, code, gives_bind.mpr ⟨(), between, firstBuilt, earlierBuilt⟩, stands⟩

namespace Ir.Function

variable {code : Ir.Function} {first second : Operation} {rule : Operation → Prop}
  {ends : Exit → Prop} {known : Known}

theorem name_seed : (code.seed first second).name = code.name := rfl

theorem signature_seed : (code.seed first second).signature = code.signature := rfl

theorem getElem?_seed {i : Nat} {block : Ir.Block} (located : code.blocks[i]? = some block) :
    ∃ added, (code.seed first second).blocks[i]? =
      some { block with code := added ++ block.code } := by
  cases blocks : code.blocks with
  | nil => simp [blocks] at located
  | cons entry rest =>
    rw [blocks] at located
    rw [seed, insertAtEntry, insertAtEntry]
    simp only [blocks, modify_zero_cons]
    -- Only the entry block gets instructions.
    cases i with
    | zero =>
      obtain rfl := Option.some.inj located
      exact ⟨[_, _], rfl⟩
    | succ i => exact ⟨[], located⟩

theorem exits_seed : (code.seed first second).blocks.map (·.exit) = code.blocks.map (·.exit) := by
  rw [seed, insertAtEntry, insertAtEntry]
  cases code.blocks with
  | nil => rfl
  | cons entry rest => rfl

/-- The first instruction uses no register, and the second no other than the first one's. -/
theorem Assembled.seed (assembled : code.Assembled rule ends known)
    (constant : ∀ value ∈ first.operands, value.isRegister = false)
    (uses : ∀ value ∈ second.operands, value = (code.insertAtEntry 0 "call_time" first).1)
    (firstAllowed : rule first) (secondAllowed : rule second) :
    (code.seed first second).Assembled rule ends known := by
  -- The first call comes before everything, the second right behind the first.
  have once : (code.insertAtEntry 0 "call_time" first).2.Assembled rule ends known :=
    assembled.insertAtEntry (fun block _ => ⟨block.code, (nil_append _).symm⟩)
      (fun value member => Value.usableIn_of_isRegister (constant value member) _) firstAllowed
  -- The entry block now starts with the first call, which is all that the second one uses.
  have begins : ∀ block ∈ (code.insertAtEntry 0 "call_time" first).2.blocks[0]?, ∃ rest,
      block.code = [⟨(code.scope.take "call_time").1, first⟩] ++ rest := by
    intro block located
    rw [Function.insertAtEntry] at located
    cases blocks : code.blocks with
    | nil => simp [blocks] at located
    | cons entry rest =>
      rw [blocks] at located
      obtain rfl := Option.some.inj located
      exact ⟨entry.code, rfl⟩
  refine once.insertAtEntry begins (fun value member => ?_) secondAllowed
  refine Value.usableIn_of_mem (mem_append_right _ ?_)
  rw [uses value member]
  exact mem_singleton.mpr rfl

theorem ended_seed (ended : ∀ block ∈ code.blocks, block.exit.isSome) :
    ∀ block ∈ (code.seed first second).blocks, block.exit.isSome := by
  -- Only instructions are added, so the ends are the same.
  intro block member
  have exit : block.exit ∈ (code.seed first second).blocks.map (·.exit) := mem_map_of_mem member
  rw [exits_seed] at exit
  obtain ⟨old, there, same⟩ := mem_map.mp exit
  exact same ▸ ended old there

theorem Allocates.seed {address : Value} (allocates : code.Allocates address) :
    (code.seed first second).Allocates address := by
  obtain ⟨name, type, rfl, block, member, written⟩ := allocates
  obtain ⟨i, located⟩ := getElem?_of_mem member
  -- The instruction that takes the memory stands behind the new ones.
  obtain ⟨added, again⟩ := getElem?_seed located
  exact ⟨name, type, rfl, _, mem_of_getElem? again, mem_append_right _ written⟩

/-- Places are where they were, behind what has been put in front. -/
theorem Places.seed {scope : Env} {point : Draft} (places : code.Places known scope point) :
    (code.seed first second).Places known scope point := by
  obtain ⟨block, front, back, located, split, held⟩ := places
  obtain ⟨added, again⟩ := getElem?_seed located
  refine ⟨_, added ++ front, back, again, by simp [split], fun name address isVariable => ?_⟩
  obtain ⟨inSight, allocates⟩ := held name address isVariable
  refine ⟨?_, allocates.seed⟩
  rw [append_assoc, map_append]
  -- What was known there came from the start of the block or from the code before the place.
  rcases mem_append.mp inSight with atStart | computed
  · exact mem_append_left _ atStart
  · exact mem_append_right _ (mem_append_right _ computed)

end Ir.Function

/-- What the seeds of a start function must be like. -/
structure Ir.Function.Seeds (code : Ir.Function) (declares : String → Signature → Prop)
    (first second : Operation) : Prop where
  constant : ∀ value ∈ first.operands, value.isRegister = false
  uses : ∀ value ∈ second.operands, value = (code.insertAtEntry 0 "call_time" first).1
  firstTyped : first.Typed declares
  secondTyped : second.Typed declares

theorem Function.Becomes.seed {opened : Draft}
    (becomes : function.Becomes isVerbose declares opened code)
    (seeds : code.Seeds declares first second) :
    function.Becomes isVerbose declares opened (code.seed first second) := by
  obtain ⟨ended, env, start, params, places⟩ := becomes
  refine ⟨Ir.Function.ended_seed ended, env, start, params, fun scope point begins => ?_⟩
  obtain ⟨known, assembled, place⟩ := places scope point begins
  exact ⟨known, assembled.seed seeds.constant seeds.uses seeds.firstTyped seeds.secondTyped,
    place.seed⟩

theorem Ir.Function.Finished.seed (finished : code.Finished)
    (seeds : code.Seeds declares first second) : (code.seed first second).Finished := by
  obtain ⟨⟨known, assembled⟩, ended⟩ := finished
  exact ⟨⟨known, assembled.seed seeds.constant seeds.uses trivial trivial⟩, ended_seed ended⟩

section Replace

variable {session : Session} {code changed : Ir.Function}

theorem Session.mem_replace (owner : String) (changed : Ir.Function) {global : Global}
    (member : global ∈ session.globals) :
    (if global.name = owner then .function changed else global) ∈
      (session.replace owner changed).globals :=
  mem_map_of_mem member

variable (sound : session.Sound) (member : .function code ∈ session.globals)
  (name : changed.name = code.name)

include sound member name

theorem Ir.Declares.replace (signature : changed.signature = code.signature) {callee : String}
    {called : Signature} (declared : Ir.Declares session.globals callee called) :
    Ir.Declares (session.replace code.name changed).globals callee called := by
  obtain ⟨other, otherMember, rfl, rfl⟩ := declared
  have kept := Session.mem_replace code.name changed otherMember
  -- A function that is found under the same name is the one that is replaced.
  by_cases same : other.name = code.name
  · obtain rfl := sound.distinct _ _ otherMember member same
    exact ⟨changed, by simpa using kept, name, signature⟩
  · exact ⟨other, by simpa [same] using kept, rfl, rfl⟩

end Replace

/-- A function stands in a module in which the start function has got its seeds. -/
theorem Function.StandsIn.seed {session : Session} {start : Ir.Function} (sound : session.Sound)
    (stands : function.StandsIn isVerbose earlier session.globals code)
    (member : .function start ∈ session.globals)
    (seeds : start.Seeds (Ir.Declares session.globals) first second) :
    ∃ code, function.StandsIn isVerbose earlier
      (session.replace start.name (start.seed first second)).globals code := by
  obtain ⟨codeMember, named, signature, typed, becomes⟩ := stands
  -- Names and signatures stay, so all calls are typed as before.
  have declared (callee : String) (called : Signature) :
      Ir.Declares session.globals callee called → Ir.Declares
        (session.replace start.name (start.seed first second)).globals callee called :=
    .replace sound member Ir.Function.name_seed Ir.Function.signature_seed
  have kept := Session.mem_replace start.name (start.seed first second) codeMember
  -- The start function itself has the seeds now, and all others are as they were.
  by_cases same : code.name = start.name
  · obtain rfl := sound.distinct _ _ codeMember member same
    exact ⟨code.seed first second, by simpa using kept, named, signature, typed,
      (becomes.seed seeds).mono declared⟩
  · exact ⟨code, by simpa [same] using kept, named, signature, typed, becomes.mono declared⟩

theorem Session.Sound.build_libc {libc : Libc} {global : Global} (sound : before.Sound)
    (sought : libc.soughtName = libc.name) (built : Gives (Build.libc libc) before global after) :
    before.globals ⊆ after.globals ∧ ∃ code, global = .function code ∧
      .function code ∈ after.globals ∧ code.signature = libc.signature := by
  -- It has been declared right now, or was there with the signature of the library.
  cases found : before.global? libc.soughtName with
  | none =>
    obtain ⟨rfl, _, rfl⟩ := (gives_libc_missing found).mp built
    exact ⟨subset_append_left _ _, _, rfl,
      mem_append_right _ (mem_singleton.mpr rfl), rfl⟩
  | some other =>
    obtain ⟨rfl, rfl⟩ := (gives_libc_found found).mp built
    have member := mem_of_find?_eq_some found
    have named : global.name = libc.name := by simpa [sought] using find?_some found
    obtain ⟨code, rfl, signature⟩ := sound.library libc global member named
    exact ⟨List.Subset.refl _, code, rfl, member, signature⟩

theorem Session.exists_seeds {declared asked seeded : Session} {owner : String}
    {time srand : Ir.Function} {now none : Value}
    (timeMember : .function time ∈ declared.globals)
    (timeSignature : time.signature = Libc.time.signature)
    (srandMember : .function srand ∈ declared.globals)
    (srandSignature : srand.signature = Libc.srand.signature)
    (timeCalled : Gives (Build.insertCall owner 0 (.function time) [.null .bytes] "call_time")
      declared now asked)
    (srandCalled : Gives (Build.insertCall owner 1 (.function srand) [now] "call_srand")
      asked none seeded) :
    ∃ start first second, .function start ∈ declared.globals ∧ start.name = owner ∧
      start.Seeds (Ir.Declares declared.globals) first second ∧
      seeded = declared.replace owner (start.seed first second) := by
  obtain ⟨first, start, timeChecked, found, rfl, rfl⟩ := gives_insertCall.mp timeCalled
  obtain ⟨second, changed, srandChecked, foundAgain, _, rfl⟩ := gives_insertCall.mp srandCalled
  obtain ⟨global, located, isStart⟩ := Option.bind_eq_some_iff.mp found
  obtain rfl := Global.function?_eq_some.mp isStart
  have named : start.name = owner := by simpa using find?_some located
  -- What has been found first and changed is found again.
  have sameName : (start.insertAtEntry 0 "call_time" first).2.name = owner := named
  rw [Session.global?_replace sameName located] at foundAgain
  obtain rfl := Option.some.inj foundAgain
  -- Both calls passed their checks, so they are typed.
  obtain ⟨timeTypes, rfl⟩ := (checkCall_eq_ok (by rw [timeSignature]; rfl)).mp timeChecked
  obtain ⟨srandTypes, rfl⟩ := (checkCall_eq_ok (by rw [srandSignature]; rfl)).mp srandChecked
  refine ⟨start, _, _, mem_of_find?_eq_some located, named, ⟨?_, ?_, ?_, ?_⟩,
    Session.replace_replace sameName _⟩
  · simp [Operation.operands, Value.isRegister]
  · simp [Operation.operands]
  · exact ⟨⟨time, timeMember, rfl, rfl⟩, timeTypes⟩
  · exact ⟨⟨srand, srandMember, rfl, rfl⟩, srandTypes⟩

/-- With its entry point a module is still sound, and the functions of the program stand in it. -/
theorem Session.Sound.wrapMain (sound : before.Sound)
    (built : Gives Build.wrapMain before () after) :
    after.Sound ∧ ∀ (function : Function) (earlier : Session) (code : Ir.Function),
      function.StandsIn isVerbose earlier before.globals code →
        ∃ code, function.StandsIn isVerbose earlier after.globals code := by
  obtain ⟨found, isStart, _, timed, timeBuilt, _, declared, srandBuilt, now, asked, timeCalled, none,
    seeded, srandCalled, free, closed⟩ := gives_wrapMain.mp built
  -- Declaring the library functions keeps the module sound.
  have timedSound := Build.Keeps.libc .time _ _ _ sound timeBuilt
  have declaredSound := Build.Keeps.libc .srand _ _ _ timedSound srandBuilt
  obtain ⟨timedKept, time, rfl, timeMember, timeSignature⟩ := sound.build_libc rfl timeBuilt
  obtain ⟨declaredKept, srand, rfl, srandMember, srandSignature⟩ :=
    timedSound.build_libc rfl srandBuilt
  -- Both library functions stand in the module when the calls are put in.
  obtain ⟨start, first, second, member, named, seeds, rfl⟩ := Session.exists_seeds
    (declaredKept timeMember) timeSignature srandMember srandSignature timeCalled srandCalled
  obtain ⟨_, foundName, result, params⟩ := Session.start?_eq_some isStart
  rw [← named] at closed free
  -- The start function is one of the program, so no library function is changed.
  have seededSound : (declared.replace start.name (start.seed first second)).Sound := by
    refine declaredSound.replace member ?_ rfl rfl rfl ((declaredSound.finished _ member).seed seeds)
    rw [named, foundName]
    exact functionName_ne_name _
  -- The entry point itself is one block of straight code.
  have main := (gives_callStart result params).mpr
    ⟨Draft.isEnded_opening (declared.replace start.name (start.seed first second)) "main"
      ⟨.i32, [], false⟩, rfl⟩
  refine ⟨?_, fun function earlier code stands => ?_⟩
  · refine Build.Keeps.define ?_ ?_ _ () _ seededSound (gives_define.mpr ⟨free, _, main, closed⟩)
    · refine .bind (.call ?_) fun status => .bind (.cast ?_) fun narrowed => .exit rfl ?_
      all_goals simp [Emit.Draws, Exit.operands]
    · intro libc
      cases libc <;> decide
  · have kept := List.Subset.trans timedKept declaredKept
    obtain ⟨code, stands⟩ := (stands.mono kept).seed declaredSound member seeds
    refine ⟨code, stands.mono ?_⟩
    rw [closed]
    exact subset_append_left _ _

theorem gives_program_stands {program : Program} {session : Session}
    (built : Gives (Build.program isVerbose program) session.renew () after) :
    after.Sound ∧ ∀ front function back, program.functions = front ++ function :: back →
      ∃ earlier code, Gives (Predefined.addAll >>= fun _ => front.forM (Build.function isVerbose))
          session.renew () earlier ∧
        function.StandsIn isVerbose earlier after.globals code := by
  obtain ⟨_, base, added, built⟩ := gives_bind.mp built
  obtain ⟨_, between, functions, wrapped⟩ := gives_bind.mp built
  -- First the predefined functions, then those of the program, then the entry point.
  have baseSound := Predefined.keeps_addAll _ _ _ session.sound_renew added
  obtain ⟨betweenSound, _, stand⟩ := baseSound.build_functions functions
  obtain ⟨afterSound, standToo⟩ := betweenSound.wrapMain wrapped
  refine ⟨afterSound, fun front function back split => ?_⟩
  obtain ⟨earlier, code, earlierBuilt, stands⟩ := stand front function back split
  obtain ⟨code, stands⟩ := standToo function earlier code stands
  exact ⟨earlier, code, gives_bind.mpr ⟨(), base, added, earlierBuilt⟩, stands⟩

end LeftHand
