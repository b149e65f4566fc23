import LeftHand.Grammar.Parser
import LeftHand.Proofs.Grammar.Derivation

/-!
The parser finds every derivation, and tells a single one from several.

What the parser keeps for a place stands for a set of derivations; each of its operations on endings
is matched by one on such sets. Fuel bounds how deep derivations nest, and no derivation of a text
nests deeper than the fuel for its length.
-/

namespace LeftHand

open List

variable {derivation : Derivation} {ending : Ending} {property : Derivation → Prop}
  {next : Cursor → Outcome}

/-- The derivations that nest no deeper than some fuel. -/
inductive DerivesWithin : Nat → Form → Cursor → Derivation → Cursor → Prop where
  | empty {fuel here} : DerivesWithin (fuel + 1) .empty here .empty here
  | token {fuel kind here token there} (taken : here.take? kind = some (token, there)) :
      DerivesWithin (fuel + 1) (.token kind) here (.token token) there
  | phrase {fuel rule here body there} (derived : DerivesWithin fuel rule.body here body there) :
      DerivesWithin (fuel + 1) (.phrase rule) here (.phrase rule body) there
  | seq {fuel first second here middle there one two}
      (before : DerivesWithin fuel first here one middle)
      (behind : DerivesWithin fuel second middle two there) :
      DerivesWithin (fuel + 1) (.seq first second) here (.seq one two) there
  | left {fuel left right here chosen there} (derived : DerivesWithin fuel left here chosen there) :
      DerivesWithin (fuel + 1) (.alt left right) here (.left chosen) there
  | right {fuel left right here chosen there}
      (derived : DerivesWithin fuel right here chosen there) :
      DerivesWithin (fuel + 1) (.alt left right) here (.right chosen) there
  | none {fuel item here} : DerivesWithin (fuel + 1) (.many item) here .empty here
  | more {fuel item here middle there items last}
      (before : DerivesWithin (fuel + 1) (.many item) here items middle)
      (behind : DerivesWithin fuel item middle last there) :
      DerivesWithin (fuel + 1) (.many item) here (.seq items last) there

theorem DerivesWithin.derives {fuel : Nat} {form : Form} {here there : Cursor}
    (derived : DerivesWithin fuel form here derivation there) :
    Derives form here derivation there := by
  induction derived with
  | empty => exact .empty
  | token taken => exact .token taken
  | phrase _ ih => exact .phrase ih
  | seq _ _ first second => exact .seq first second
  | left _ ih => exact .left ih
  | right _ ih => exact .right ih
  | none => exact .none
  | more _ _ before behind => exact .more before behind

/-- Whether one derivation has a property, or several have it. -/
def Found.Counts (property : Derivation → Prop) : Found → Prop
  | one derivation => ∀ other, property other ↔ other = derivation
  | several => ∃ one other, property one ∧ property other ∧ one ≠ other

namespace Found.Counts

variable {property other : Derivation → Prop} {found next : Found}

variable (counts : found.Counts property)

include counts

theorem exists_mem : ∃ derivation, property derivation := by
  cases found with
  | one derivation => exact ⟨derivation, (counts derivation).mpr rfl⟩
  | several =>
    obtain ⟨one, _, holds, _⟩ := counts
    exact ⟨one, holds⟩

theorem congr (same : ∀ derivation, property derivation ↔ other derivation) :
    found.Counts other := by
  have equal : property = other := funext fun derivation => propext (same derivation)
  exact equal ▸ counts

theorem map {make : Derivation → Derivation}
    (injective : ∀ one other, make one = make other → one = other) :
    (found.map make).Counts fun made => ∃ derivation, made = make derivation ∧
      property derivation := by
  cases found with
  | one derivation =>
    intro made
    constructor
    · rintro ⟨given, rfl, holds⟩
      rw [(counts given).mp holds]
    · rintro rfl
      exact ⟨derivation, rfl, (counts derivation).mpr rfl⟩
  | several =>
    obtain ⟨one, other, first, second, differ⟩ := counts
    exact ⟨make one, make other, ⟨one, rfl, first⟩, ⟨other, rfl, second⟩,
      fun same => differ (injective one other same)⟩

theorem seq (also : next.Counts other) :
    (found.seq next).Counts fun made => ∃ first second, made = .seq first second ∧
      property first ∧ other second := by
  cases found with
  | one first =>
    cases next with
    | one second =>
      intro made
      constructor
      · rintro ⟨one, two, rfl, before, behind⟩
        rw [(counts one).mp before, (also two).mp behind]
      · rintro rfl
        exact ⟨first, second, rfl, (counts first).mpr rfl, (also second).mpr rfl⟩
    | several =>
      obtain ⟨one, two, behind, again, differ⟩ := also
      have before := (counts first).mpr rfl
      refine ⟨.seq first one, .seq first two, ⟨first, one, rfl, before, behind⟩,
        ⟨first, two, rfl, before, again⟩, ?_⟩
      exact fun same => differ (Derivation.seq.inj same).2
  | several =>
    obtain ⟨one, two, before, again, differ⟩ := counts
    obtain ⟨second, behind⟩ := also.exists_mem
    refine ⟨.seq one second, .seq two second, ⟨one, second, rfl, before, behind⟩,
      ⟨two, second, rfl, again, behind⟩, ?_⟩
    exact fun same => differ (Derivation.seq.inj same).1

end Found.Counts

/-- Endings list a set of derivations from a place: in the order of the text, with one entry for
each place where some of them end. -/
structure Lists (endings : List Ending) (here : Cursor) (reads : Derivation → Cursor → Prop) :
    Prop where
  ordered : endings.Pairwise fun one other => one.there.place < other.there.place
  counts : ∀ ending ∈ endings, ending.found.Counts (reads · ending.there)
  complete : ∀ derivation there, reads derivation there → ∃ ending ∈ endings, ending.there = there
  leads : ∀ derivation there, reads derivation there → here.LeadsTo there

namespace Ending

variable {ending other : Ending} {endings : List Ending}

variable (ordered : endings.Pairwise fun one other => one.there.place < other.there.place)

include ordered

theorem mem_insert :
    other ∈ ending.insert endings ↔
      (other ∈ endings ∧ other.there.place ≠ ending.there.place) ∨
      (∃ old ∈ endings, old.there.place = ending.there.place ∧ other = ⟨old.there, .several⟩) ∨
      (other = ending ∧ ∀ old ∈ endings, old.there.place ≠ ending.there.place) := by
  induction endings with
  | nil => simp [insert]
  | cons first endings ih =>
    obtain ⟨before, ordered⟩ := pairwise_cons.mp ordered
    unfold insert
    split
    · -- All endings lie behind the new one.
      rename_i isFirst
      have behind : ∀ old ∈ first :: endings, old.there.place ≠ ending.there.place := by
        intro old member
        rcases mem_cons.mp member with rfl | later
        · omega
        · have := before old later
          omega
      constructor
      · intro member
        rcases mem_cons.mp member with rfl | old
        · exact .inr (.inr ⟨rfl, behind⟩)
        · exact .inl ⟨old, behind other old⟩
      · rintro (⟨old, _⟩ | ⟨old, member, same, _⟩ | ⟨rfl, _⟩)
        · exact mem_cons_of_mem _ old
        · exact absurd same (behind old member)
        · exact mem_cons_self
    · split
      · -- The first ending lies before the new one, which goes into the rest.
        rename_i notFirst isLater
        simp only [mem_cons, ih ordered, exists_eq_or_imp, forall_eq_or_imp]
        constructor
        · rintro (rfl | ⟨old, differ⟩ | ⟨old, member, same, rfl⟩ | ⟨rfl, free⟩)
          · exact .inl ⟨.inl rfl, by omega⟩
          · exact .inl ⟨.inr old, differ⟩
          · exact .inr (.inl (.inr ⟨old, member, same, rfl⟩))
          · exact .inr (.inr ⟨rfl, by omega, free⟩)
        · rintro (⟨rfl | old, differ⟩ | (⟨same, _⟩ | ⟨old, member, same, rfl⟩) | ⟨rfl, _, free⟩)
          · exact .inl rfl
          · exact .inr (.inl ⟨old, differ⟩)
          · omega
          · exact .inr (.inr (.inl ⟨old, member, same, rfl⟩))
          · exact .inr (.inr (.inr ⟨rfl, free⟩))
      · -- The first ending lies at the same place, so the two become one.
        have same : first.there.place = ending.there.place := by omega
        have behind : ∀ old ∈ endings, old.there.place ≠ ending.there.place := by
          intro old member
          have := before old member
          omega
        simp only [mem_cons, exists_eq_or_imp, forall_eq_or_imp]
        constructor
        · rintro (rfl | old)
          · exact .inr (.inl (.inl ⟨same, rfl⟩))
          · exact .inl ⟨.inr old, behind other old⟩
        · rintro (⟨rfl | old, differ⟩ | (⟨_, rfl⟩ | ⟨old, member, equal, _⟩) | ⟨_, differ, _⟩)
          · exact absurd same differ
          · exact .inr old
          · exact .inl rfl
          · exact absurd equal (behind old member)
          · exact absurd same differ

theorem ordered_insert :
    (ending.insert endings).Pairwise fun one other => one.there.place < other.there.place := by
  induction endings with
  | nil => simp [insert]
  | cons first endings ih =>
    obtain ⟨before, later⟩ := pairwise_cons.mp ordered
    unfold insert
    split
    · rename_i isFirst
      refine pairwise_cons.mpr ⟨fun old member => ?_, ordered⟩
      rcases mem_cons.mp member with rfl | inside
      · exact isFirst
      · exact Nat.lt_trans isFirst (before old inside)
    · split
      · rename_i isLater
        refine pairwise_cons.mpr ⟨fun old member => ?_, ih later⟩
        rcases (mem_insert later).mp member with ⟨inside, _⟩ | ⟨same, inside, _, rfl⟩ | ⟨rfl, _⟩
        · exact before old inside
        · exact before same inside
        · exact isLater
      · exact pairwise_cons.mpr ⟨before, later⟩

end Ending

namespace Lists

variable {endings more : List Ending} {here middle : Cursor}
  {reads others : Derivation → Cursor → Prop}

theorem congr (listed : Lists endings here reads)
    (same : ∀ derivation there, reads derivation there ↔ others derivation there) :
    Lists endings here others := by
  have equal : reads = others :=
    funext fun derivation => funext fun there => propext (same derivation there)
  exact equal ▸ listed

theorem nil : Lists [] here fun _ _ => False where
  ordered := .nil
  counts _ member := absurd member not_mem_nil
  complete _ _ reads := reads.elim
  leads _ _ reads := reads.elim

theorem singleton {there : Cursor} (leads : here.LeadsTo there) :
    Lists [⟨there, .one derivation⟩] here fun other stop => other = derivation ∧ stop = there where
  ordered := pairwise_singleton _ _
  counts := by
    intro ending member
    obtain rfl := mem_singleton.mp member
    exact fun other => ⟨And.left, fun same => ⟨same, rfl⟩⟩
  complete := by
    rintro _ _ ⟨rfl, rfl⟩
    exact ⟨_, mem_singleton_self _, rfl⟩
  leads := by
    rintro _ _ ⟨rfl, rfl⟩
    exact leads

theorem leads_mem (listed : Lists endings here reads) (member : ending ∈ endings) :
    here.LeadsTo ending.there := by
  obtain ⟨derivation, read⟩ := (listed.counts ending member).exists_mem
  exact listed.leads derivation ending.there read

/-- Adding an ending adds derivations that were not listed. -/
theorem insert (listed : Lists endings here reads) (counted : ending.found.Counts property)
    (leads : here.LeadsTo ending.there)
    (apart : ∀ derivation, property derivation → ¬reads derivation ending.there) :
    Lists (ending.insert endings) here fun derivation there =>
      reads derivation there ∨ (there = ending.there ∧ property derivation) where
  ordered := Ending.ordered_insert listed.ordered
  counts := by
    intro entry member
    rcases (Ending.mem_insert listed.ordered).mp member with
      ⟨old, differ⟩ | ⟨old, inside, same, rfl⟩ | ⟨rfl, free⟩
    · -- At another place nothing is added.
      refine (listed.counts entry old).congr fun derivation => ?_
      constructor
      · exact .inl
      · rintro (read | ⟨equal, _⟩)
        · exact read
        · exact absurd (congrArg Cursor.place equal) differ
    · -- At the same place one derivation was there and one comes in.
      have equal : old.there = ending.there := (listed.leads_mem inside).eq_of_place leads same
      obtain ⟨one, read⟩ := (listed.counts old inside).exists_mem
      obtain ⟨other, holds⟩ := counted.exists_mem
      refine ⟨one, other, .inl read, .inr ⟨equal, holds⟩, ?_⟩
      rintro rfl
      exact apart one holds (equal ▸ read)
    · -- A new place has the new derivations only.
      refine counted.congr fun derivation => ?_
      constructor
      · exact fun holds => .inr ⟨rfl, holds⟩
      · rintro (read | ⟨_, holds⟩)
        · obtain ⟨old, inside, equal⟩ := listed.complete derivation entry.there read
          exact absurd (congrArg Cursor.place equal) (free old inside)
        · exact holds
  complete := by
    intro derivation there read
    -- Whatever was listed at a place, the place stays listed, and the new one is.
    have covers : ∀ place, (∃ old ∈ endings, old.there = place) ∨ place = ending.there →
        ∃ entry ∈ ending.insert endings, entry.there = place := by
      intro place known
      by_cases same : place.place = ending.there.place
      · by_cases present : ∃ old ∈ endings, old.there.place = ending.there.place
        · obtain ⟨old, inside, equal⟩ := present
          refine ⟨⟨old.there, .several⟩,
            (Ending.mem_insert listed.ordered).mpr (.inr (.inl ⟨old, inside, equal, rfl⟩)), ?_⟩
          rcases known with ⟨other, also, rfl⟩ | rfl
          · exact (listed.leads_mem inside).eq_of_place (listed.leads_mem also)
              (equal.trans same.symm)
          · exact (listed.leads_mem inside).eq_of_place leads equal
        · refine ⟨ending, (Ending.mem_insert listed.ordered).mpr (.inr (.inr ⟨rfl, ?_⟩)), ?_⟩
          · exact fun old inside equal => present ⟨old, inside, equal⟩
          · rcases known with ⟨old, inside, rfl⟩ | rfl
            · exact absurd ⟨old, inside, same⟩ present
            · rfl
      · rcases known with ⟨old, inside, rfl⟩ | rfl
        · exact ⟨old, (Ending.mem_insert listed.ordered).mpr (.inl ⟨inside, same⟩), rfl⟩
        · exact absurd rfl same
    rcases read with read | ⟨rfl, _⟩
    · exact covers there (.inl (listed.complete derivation there read))
    · exact covers ending.there (.inr rfl)
  leads := by
    rintro derivation there (read | ⟨rfl, _⟩)
    · exact listed.leads derivation there read
    · exact leads

theorem tail (listed : Lists (ending :: endings) here reads) :
    Lists endings here fun derivation there => reads derivation there ∧ there ≠ ending.there := by
  obtain ⟨before, later⟩ := pairwise_cons.mp listed.ordered
  have differ : ∀ entry ∈ endings, entry.there ≠ ending.there := by
    intro entry inside equal
    have := before entry inside
    rw [equal] at this
    omega
  refine ⟨later, fun entry inside => ?_, ?_, fun derivation there read =>
    listed.leads derivation there read.1⟩
  · refine (listed.counts entry (mem_cons_of_mem _ inside)).congr fun derivation => ?_
    exact ⟨fun read => ⟨read, differ entry inside⟩, And.left⟩
  · rintro derivation there ⟨read, other⟩
    obtain ⟨entry, member, rfl⟩ := listed.complete derivation there read
    rcases mem_cons.mp member with rfl | inside
    · exact absurd rfl other
    · exact ⟨entry, inside, rfl⟩

section

variable (listed : Lists endings here reads)

include listed

theorem join (also : Lists more here others)
    (apart : ∀ derivation there, reads derivation there → ¬others derivation there) :
    Lists (Ending.join endings more) here fun derivation there =>
      reads derivation there ∨ others derivation there := by
  induction more generalizing endings reads others with
  | nil =>
    refine listed.congr fun derivation there => ⟨.inl, ?_⟩
    rintro (read | other)
    · exact read
    · obtain ⟨_, member, _⟩ := also.complete derivation there other
      cases member
  | cons ending more ih =>
    -- The first ending is added, and the rest are joined to that.
    have added := listed.insert (also.counts ending mem_cons_self)
      (also.leads_mem mem_cons_self)
      fun derivation other read => apart derivation ending.there read other
    refine (ih added also.tail ?_).congr fun derivation there => ?_
    · rintro derivation there (read | ⟨rfl, _⟩) ⟨other, differ⟩
      · exact apart derivation there read other
      · exact differ rfl
    · constructor
      · rintro ((read | ⟨rfl, other⟩) | ⟨other, _⟩)
        · exact .inl read
        · exact .inr other
        · exact .inr other
      · rintro (read | other)
        · exact .inl (.inl read)
        · by_cases first : there = ending.there
          · subst first
            exact .inl (.inr ⟨rfl, other⟩)
          · exact .inr ⟨other, first⟩

theorem image {make : Found → Found} {start : Cursor} (leads : start.LeadsTo here)
    (counts : ∀ ending ∈ endings, (make ending.found).Counts (others · ending.there))
    (covers : ∀ derivation there, others derivation there → ∃ given, reads given there) :
    Lists (endings.map fun ending => { ending with found := make ending.found }) start others where
  ordered := pairwise_map.mpr listed.ordered
  counts := by
    intro entry member
    obtain ⟨ending, inside, rfl⟩ := mem_map.mp member
    exact counts ending inside
  complete := by
    intro derivation there other
    obtain ⟨given, read⟩ := covers derivation there other
    obtain ⟨ending, inside, rfl⟩ := listed.complete given there read
    exact ⟨_, mem_map.mpr ⟨ending, inside, rfl⟩, rfl⟩
  leads := by
    intro derivation there other
    obtain ⟨given, read⟩ := covers derivation there other
    exact leads.trans (listed.leads given there read)

theorem map (make : Derivation → Derivation)
    (injective : ∀ one other, make one = make other → one = other) :
    Lists (endings.map fun ending => { ending with found := ending.found.map make }) here
      fun made there => ∃ derivation, made = make derivation ∧ reads derivation there :=
  listed.image .refl (fun ending inside => (listed.counts ending inside).map injective)
    fun _ _ ⟨derivation, _, read⟩ => ⟨derivation, read⟩

end

theorem behind {found : Found} (counted : found.Counts property) (leads : here.LeadsTo middle)
    (listed : Lists endings middle reads) :
    Lists (endings.map fun ending => { ending with found := found.seq ending.found }) here
      fun made there => ∃ first second, made = .seq first second ∧ property first ∧
        reads second there :=
  listed.image leads (fun ending inside => counted.seq (listed.counts ending inside))
    fun _ _ ⟨_, second, _, _, read⟩ => ⟨second, read⟩

/-- Going on from every listed derivation, all of which are told apart by where they end. -/
theorem andThen {outcome : Outcome} {onward : Cursor → Derivation → Cursor → Prop}
    (listed : Lists outcome.endings here reads)
    (listedNext : ∀ middle, Lists (next middle).endings middle (onward middle))
    (ends : ∀ derivation one other, reads derivation one → reads derivation other → one = other) :
    Lists (outcome.andThen next).endings here fun made there => ∃ first second middle,
      made = .seq first second ∧ reads first middle ∧ onward middle second there := by
  -- What has been gathered so far is kept apart from what is still to come.
  have gather : ∀ (endings : List Ending) (sofar : Outcome) (reads others : Derivation → Cursor → Prop),
      Lists endings here reads → Lists sofar.endings here others →
      (∀ derivation one other, reads derivation one → reads derivation other → one = other) →
      (∀ first second there middle, others (.seq first second) there → ¬reads first middle) →
      Lists (endings.foldl (fun joined ending =>
        joined.join ((next ending.there).map (ending.found.seq ·))) sofar).endings here
        fun made there => others made there ∨ ∃ first second middle,
          made = .seq first second ∧ reads first middle ∧ onward middle second there := by
    intro endings
    induction endings with
    | nil =>
      intro sofar reads others listed gathered _ _
      refine gathered.congr fun derivation there => ⟨.inl, ?_⟩
      rintro (other | ⟨first, _, middle, _, read, _⟩)
      · exact other
      · obtain ⟨_, member, _⟩ := listed.complete first middle read
        cases member
    | cons ending endings ih =>
      intro sofar reads others listed gathered ends apart
      have stepped := Lists.behind (listed.counts ending mem_cons_self)
        (listed.leads_mem mem_cons_self) (listedNext ending.there)
      have joined := gathered.join stepped fun derivation there other ⟨first, second, made, read, _⟩ =>
        apart first second there ending.there (made ▸ other) read
      refine (ih (sofar.join ((next ending.there).map (ending.found.seq ·))) _ _ listed.tail joined
        (fun derivation one other read also => ends derivation one other read.1 also.1)
        ?_).congr fun derivation there => ?_
      · -- A derivation ends at one place, so what ends at this one ends at no later one.
        rintro first second there middle (other | ⟨_, _, made, read, _⟩) ⟨also, differ⟩
        · exact apart first second there middle other also
        · cases made
          exact differ (ends first middle ending.there also read)
      · constructor
        · rintro ((other | ⟨first, second, made, read, behind⟩) |
            ⟨first, second, middle, made, read, behind⟩)
          · exact .inl other
          · exact .inr ⟨first, second, ending.there, made, read, behind⟩
          · exact .inr ⟨first, second, middle, made, read.1, behind⟩
        · rintro (other | ⟨first, second, middle, made, read, behind⟩)
          · exact .inl (.inl other)
          · by_cases here : middle = ending.there
            · subst here
              exact .inl (.inr ⟨first, second, made, read, behind⟩)
            · exact .inr ⟨first, second, middle, made, ⟨read, here⟩, behind⟩
  refine (gather outcome.endings ⟨[], outcome.reach⟩ reads _ listed nil ends ?_).congr
    fun derivation there => ?_
  · exact fun _ _ _ _ other => other.elim
  · exact ⟨fun read => read.elim False.elim id, .inr⟩

end Lists

section Repetition

/-- The derivations of repeated items that end at or behind a place, and whose last item starts
before it: those from which the later ones arise. -/
def Pending (fuel : Nat) (item : Form) (here : Cursor) (place : Nat) (derivation : Derivation)
    (there : Cursor) : Prop :=
  DerivesWithin (fuel + 1) (.many item) here derivation there ∧ place ≤ there.place ∧
    ∀ items last middle, derivation = .seq items last →
      DerivesWithin (fuel + 1) (.many item) here items middle → middle.place < place

variable {fuel place : Nat} {item : Form} {here there stop other : Cursor}
  {derivation : Derivation}

theorem DerivesWithin.end_eq {form : Form} (derived : DerivesWithin fuel form here derivation there)
    (again : DerivesWithin fuel form here derivation other) : there = other :=
  derived.derives.end_eq again.derives

theorem DerivesWithin.exists_pending
    (derived : DerivesWithin (fuel + 1) (.many item) here derivation there)
    (behind : place ≤ there.place) :
    ∃ waiting middle, Pending fuel item here place waiting middle ∧
      middle.place ≤ there.place := by
  generalize counted : fuel + 1 = bound at derived
  generalize repeated : Form.many item = form at derived
  induction derived with
  | empty | token | phrase | seq | left | right => cases repeated
  | none =>
    cases repeated
    cases counted
    exact ⟨.empty, _, ⟨.none, behind, fun _ _ _ made => by cases made⟩, Nat.le_refl _⟩
  | @more _ _ start middle finish items final before last ih _ =>
    cases repeated
    cases counted
    by_cases earlier : place ≤ middle.place
    · obtain ⟨waiting, stop, pending, reached⟩ := ih earlier rfl rfl
      exact ⟨waiting, stop, pending, Nat.le_trans reached last.derives.leadsTo.place_le⟩
    · -- The last item itself starts before the place.
      refine ⟨.seq items final, finish, ⟨.more before last, behind, ?_⟩, Nat.le_refl _⟩
      rintro first second stop made again
      cases made
      rw [again.end_eq before]
      omega

/-- The first place at which a pending derivation ends is complete: what ends there is pending. -/
theorem DerivesWithin.pending (solid : item.isNullable = false)
    (derived : DerivesWithin (fuel + 1) (.many item) here derivation stop)
    (reached : place ≤ stop.place)
    (first : ∀ derivation there, DerivesWithin (fuel + 1) (.many item) here derivation there →
      place ≤ there.place → stop.place ≤ there.place) :
    Pending fuel item here place derivation stop := by
  refine ⟨derived, reached, ?_⟩
  rintro items last middle rfl again
  cases derived with
  | more earlier final =>
    obtain rfl := again.end_eq earlier
    have advanced := final.derives.place_lt solid
    -- Otherwise the items before the last one would end between the two places.
    apply Nat.lt_of_not_le
    intro between
    have := first items middle again between
    omega

/-- Once a place has been gone on from, those pending are the others and those behind it. -/
theorem pending_next (solid : item.isNullable = false) (leads : here.LeadsTo stop)
    (reached : place ≤ stop.place)
    (first : ∀ derivation there, DerivesWithin (fuel + 1) (.many item) here derivation there →
      place ≤ there.place → stop.place ≤ there.place) :
    (Pending fuel item here place derivation there ∧ there ≠ stop) ∨
      (∃ items last, derivation = .seq items last ∧ Pending fuel item here place items stop ∧
        DerivesWithin fuel item stop last there) ↔
      Pending fuel item here (stop.place + 1) derivation there := by
  constructor
  · rintro (⟨⟨derived, behind, starts⟩, differ⟩ | ⟨items, last, rfl, ⟨derived, _⟩, final⟩)
    · have onward := first derivation there derived behind
      have apart : there.place ≠ stop.place := fun same =>
        differ (derived.derives.leadsTo.eq_of_place leads same)
      refine ⟨derived, by omega, ?_⟩
      intro items last middle made again
      have := starts items last middle made again
      omega
    · have advanced := final.derives.place_lt solid
      refine ⟨.more derived final, by omega, ?_⟩
      rintro _ _ middle made again
      cases made
      rw [again.end_eq derived]
      exact Nat.lt_succ_self _
  · rintro ⟨derived, behind, starts⟩
    have differ : there ≠ stop := by
      rintro rfl
      omega
    cases derived with
    | none => exact .inl ⟨⟨.none, by omega, fun _ _ _ made => by cases made⟩, differ⟩
    | @more _ _ _ middle _ items last before final =>
      have started := starts items last middle rfl before
      by_cases earlier : middle.place < place
      · refine .inl ⟨⟨.more before final, by omega, ?_⟩, differ⟩
        rintro _ _ other made again
        cases made
        rw [again.end_eq before]
        exact earlier
      · -- The last item starts exactly where the first pending derivations end.
        have onward := first items middle before (by omega)
        obtain rfl : middle = stop := before.derives.leadsTo.eq_of_place leads (by omega)
        exact .inr ⟨items, last, rfl, before.pending solid reached first, final⟩

/-- Repetition lists all that ends at or behind a place from what is pending there. -/
theorem Lists.repeated (solid : item.isNullable = false)
    (listedNext : ∀ middle, Lists (next middle).endings middle (DerivesWithin fuel item middle)) :
    ∀ (rounds place : Nat) (pending : List Ending), Lists pending here (Pending fuel item here place) →
      here.place + here.rest.length < place + rounds →
      Lists (Outcome.repeated next rounds pending).endings here fun derivation there =>
        DerivesWithin (fuel + 1) (.many item) here derivation there ∧ place ≤ there.place := by
  intro rounds
  induction rounds with
  | zero =>
    intro place pending _ short
    -- No place of the text lies so far on.
    refine Lists.nil.congr fun derivation there => ⟨False.elim, ?_⟩
    rintro ⟨derived, behind⟩
    have := derived.derives.leadsTo.place_add_length
    omega
  | succ rounds ih =>
    intro place pending listed short
    cases pending with
    | nil =>
      refine Lists.nil.congr fun derivation there => ⟨False.elim, ?_⟩
      rintro ⟨derived, behind⟩
      obtain ⟨waiting, middle, waits, _⟩ := derived.exists_pending behind
      obtain ⟨_, member, _⟩ := listed.complete waiting middle waits
      cases member
    | cons ending pending =>
      obtain ⟨before, _⟩ := pairwise_cons.mp listed.ordered
      have counted := listed.counts ending mem_cons_self
      have leads := listed.leads_mem mem_cons_self
      have reached : place ≤ ending.there.place := by
        obtain ⟨_, _, reached, _⟩ := counted.exists_mem
        exact reached
      -- The first pending ending is the first of all that can still arise.
      have first : ∀ derivation there,
          DerivesWithin (fuel + 1) (.many item) here derivation there → place ≤ there.place →
            ending.there.place ≤ there.place := by
        intro derivation there derived behind
        obtain ⟨waiting, middle, waits, onward⟩ := derived.exists_pending behind
        obtain ⟨entry, member, rfl⟩ := listed.complete waiting middle waits
        rcases mem_cons.mp member with rfl | inside
        · exact onward
        · have := before entry inside
          omega
      have stepped := Lists.behind counted leads (listedNext ending.there)
      have joined := listed.tail.join stepped fun derivation there ⟨⟨_, _, starts⟩, _⟩
          ⟨items, last, made, ⟨derived, _⟩, _⟩ => by
        have := starts items last ending.there made derived
        omega
      have later := ih (ending.there.place + 1) _
        (joined.congr fun _ _ => pending_next solid leads reached first) (by omega)
      -- The first ending stands before all that repetition finds behind it.
      have onward : ∀ entry ∈ (Outcome.repeated next rounds (Ending.join pending
          ((next ending.there).endings.map fun entry =>
            { entry with found := ending.found.seq entry.found }))).endings,
          ending.there.place < entry.there.place := by
        intro entry member
        obtain ⟨_, _, behind⟩ := (later.counts entry member).exists_mem
        exact behind
      refine ⟨pairwise_cons.mpr ⟨onward, later.ordered⟩, ?_, ?_, fun derivation there read =>
        read.1.derives.leadsTo⟩
      · intro entry member
        rcases mem_cons.mp member with rfl | inside
        · refine counted.congr fun derivation => ⟨fun waits => ⟨waits.1, reached⟩, ?_⟩
          exact fun read => read.1.pending solid reached first
        · refine (later.counts entry inside).congr fun derivation => ?_
          have := onward entry inside
          exact ⟨fun read => ⟨read.1, by omega⟩, fun read => ⟨read.1, by omega⟩⟩
      · rintro derivation there ⟨derived, behind⟩
        have onward := first derivation there derived behind
        by_cases same : there.place = ending.there.place
        · exact ⟨ending, mem_cons_self,
            leads.eq_of_place derived.derives.leadsTo same.symm⟩
        · obtain ⟨entry, member, found⟩ :=
            later.complete derivation there ⟨derived, by omega⟩
          exact ⟨entry, mem_cons_of_mem _ member, found⟩

end Repetition

end LeftHand
