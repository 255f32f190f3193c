import CommandScript.Proofs.Parser.Keeps
import CommandScript.Proofs.Parser.Logged

/-!
# Proofs/Parser/Counters — what is opened is closed again

The grammar counts open groups, open blocks and open levels. An expression, an action, a block and
a statement that is read leaves all three counts as they were, also an action whose expression was
given up inside a group; one that fails closes its levels at least, and an expression its blocks.
No group is closed that is not open, never more levels are open than `maxDepth`, and wherever a
level is asked for, those that may still be opened are those that are not open: what a text is
refused for is that `maxDepth` levels are open (`levels_eq_of_ask`).

`Takes limit c d x` says this of one parser, from the counts `c` to the counts `d`; it is proved
along the grammar, each level of which has one level less to open.
-/

namespace CommandScript

namespace Parser

/-- How many groups, blocks and levels are open. -/
structure Counters where
  nesting : Nat
  blockDepth : Nat
  depth : Nat

namespace Counters

/-- One more group is open. -/
def inGroup (c : Counters) : Counters := { c with nesting := c.nesting + 1 }

/-- One more block is open. -/
def inBlock (c : Counters) : Counters := { c with blockDepth := c.blockDepth + 1 }

/-- One more level is open. -/
def deeper (c : Counters) : Counters := { c with depth := c.depth + 1 }

end Counters

/-- How many groups, blocks and levels are open in a state. -/
def State.counters (s : State) : Counters := ⟨s.nesting, s.blockDepth, s.depth⟩

theorem EndsIn.final {P : State → Prop} {α : Type} {r : EStateM.Result Error State α}
    (h : EndsIn P r) : P (final r) := by
  cases r with
  | ok a t => exact h
  | error e t => exact h

/-! ## Parsers that count nothing -/

/-- A parser that leaves the counts alone, also where it fails. -/
def Steady {α : Type} (p : Parser α) : Prop := ∀ c : Counters, Keeps (fun s => s.counters = c) p

section Steady

variable {α β : Type}

theorem Steady.bind {p : Parser α} {f : α → Parser β} (hp : Steady p) (hf : ∀ a, Steady (f a)) :
    Steady (p >>= f) := fun c => (hp c).bind fun a => hf a c

theorem Steady.ite {c : Prop} [Decidable c] {p q : Parser α} (hp : Steady p) (hq : Steady q) :
    Steady (if c then p else q) := fun d => keeps_ite (hp d) (hq d)

theorem Steady.counters_final {p : Parser α} (hp : Steady p) (s : State) :
    (final (p s)).counters = s.counters := (hp s.counters rfl).final

theorem steady_pure (a : α) : Steady (pure a) := fun _ => keeps_pure a

theorem steady_throw (e : Error) : Steady (throw e : Parser α) := fun _ _ hs => hs

theorem steady_get : Steady get := fun _ _ hs => hs

theorem steady_current : Steady current := fun _ => keeps_current

theorem steady_currentSpan : Steady currentSpan := fun _ _ hs => hs

theorem steady_check (sign : Symbol) : Steady (check sign) := fun _ => keeps_check sign

theorem steady_unexpected (wanted : String) : Steady (unexpected wanted : Parser α) :=
  fun _ => keeps_unexpected wanted

theorem steady_tooDeep : Steady (tooDeep : Parser α) := fun _ => keeps_tooDeep

theorem steady_atStatementEnd : Steady atStatementEnd := fun _ _ hs => hs

theorem steady_peek? : Steady peek? := by
  intro c s hs
  unfold peek?
  split <;> exact hs

/-- Reading a token counts nothing. -/
theorem counters_readFrom {s t : State} {acrossLines : Bool} {c : Cursor}
    (h : s.readFrom acrossLines c = .ok t) : t.counters = s.counters := by
  obtain ⟨hnesting, hblock, hdepth⟩ := readFrom_fields h
  rw [State.counters, hnesting, hblock, hdepth, State.counters]

theorem steady_advance : Steady advance := by
  intro c s hs
  unfold advance
  cases hread : s.readFrom (0 < s.nesting) s.cursor with
  | ok t => exact (counters_readFrom hread).trans hs
  | error e => exact hs

theorem steady_expect (sign : Symbol) : Steady (expect sign) :=
  (steady_check sign).bind fun _ => steady_advance.ite (steady_unexpected _)

theorem steady_expectKeyword (word : Keyword) : Steady (expectKeyword word) :=
  steady_current.bind fun _ => steady_advance.ite (steady_unexpected _)

theorem steady_expectName (wanted : String) : Steady (expectName wanted) := by
  refine steady_current.bind fun t => ?_
  split
  · exact steady_advance.bind fun _ => steady_pure _
  · exact steady_unexpected _

theorem steady_atSeparator : Steady atSeparator := steady_current.bind fun _ => steady_pure _

theorem steady_skipSeparators : ∀ n : Nat, Steady (skipSeparators n)
  | 0 => steady_pure ()
  | n + 1 => steady_atSeparator.bind fun _ =>
    (steady_advance.bind fun _ => steady_skipSeparators n).ite (steady_pure ())

theorem steady_expectStatementEnd : Steady expectStatementEnd := by
  have hend : Steady (do if ← atSeparator then advance) :=
    steady_atSeparator.bind fun _ => steady_advance.ite (steady_pure ())
  refine steady_atStatementEnd.bind fun found => ?_
  cases found with
  | true => exact hend
  | false => exact (steady_unexpected _).bind fun _ => hend

theorem steady_skipToElse : Steady skipToElse := by
  intro c s hs
  unfold skipToElse
  split
  · exact hs
  split
  · cases hread : s.readFrom true s.cursor with
    | error e => exact hs
    | ok t =>
      dsimp only
      split
      · exact (counters_readFrom hread).trans hs
      · exact hs
  · exact hs

theorem steady_finish (e : Expr) : Steady (primary.finish e) :=
  steady_advance.bind fun _ => steady_pure e

theorem steady_parametersFrom : ∀ (size : Nat) (earlier : List String),
    Steady (parametersFrom size earlier)
  | 0, _ => steady_pure []
  | size + 1, earlier => (steady_check _).bind fun _ => (steady_pure []).ite <|
    (steady_expectName _).bind fun name =>
      (steady_currentSpan.bind fun _ => steady_throw _).ite <|
        (steady_check _).bind fun _ => .ite
          (steady_advance.bind fun _ =>
            (steady_parametersFrom size (name :: earlier)).bind fun _ => steady_pure _)
          (steady_pure _)

theorem steady_dropGroupedNewlines : Steady (modify State.dropGroupedNewlines) := by
  intro c s hs
  have hcounters : s.dropGroupedNewlines.counters = s.counters := by
    unfold State.dropGroupedNewlines
    split <;> rfl
  exact hcounters.trans hs

theorem steady_listed (size : Nat) : Steady (listed size) :=
  steady_dropGroupedNewlines.bind fun _ => steady_parametersFrom size []

theorem steady_knownCommand? (commands : CommandSet) : Steady (knownCommand? commands) := by
  refine steady_current.bind fun t => ?_
  split
  · exact (steady_peek?.bind fun _ => (steady_pure _).ite (steady_pure _)).ite (steady_pure _)
  · exact steady_pure _

theorem steady_isComplete (e : Expr) : Steady (isComplete e) := by
  unfold isComplete
  split
  · exact steady_atStatementEnd.bind fun _ => (steady_check _).bind fun _ => steady_pure _
  · exact steady_atStatementEnd

theorem steady_readingOf (name : String) (result : Except Error Expr) (complete : Bool) :
    Steady (readingOf name result complete) := by
  unfold readingOf
  split
  · exact steady_pure _
  · exact (steady_check _).bind fun _ => (steady_pure _).ite (steady_pure _)

theorem steady_commandFrom (origin : Cursor) (span : Span) : Steady (commandFrom origin span) := by
  intro c s hs
  unfold commandFrom
  cases origin.commandLine (0 < s.blockDepth) with
  | error e => exact hs
  | ok line =>
    dsimp only
    split
    · exact hs
    cases hread : s.readFrom (0 < s.nesting) line.2 with
    | error e => exact hs
    | ok t => exact (counters_readFrom hread).trans hs

end Steady

/-! ## Counting along a run -/

/-- How an event keeps to the counts, where at most `limit` levels may be open: all levels are open
or may still be opened, a group that is closed is open, what is read leaves the counts as they were,
what fails the levels, and an expression the blocks in any case. -/
def Event.Fits (limit : Nat) : Event → Prop
  | .point s => s.depth ≤ limit
  | .ask levels s => s.depth + levels = limit
  | .close s => 0 < s.nesting
  | .whole what s success t => t.depth = s.depth
    ∧ (what = .expression → t.blockDepth = s.blockDepth)
    ∧ (success = true → t.counters = s.counters)

namespace Logged

/-- From the counts `c` all that happens fits the limit, the levels are closed at the end, and a
parser that succeeds ends with the counts `d`. -/
structure Takes {α : Type} (limit : Nat) (c d : Counters) (x : Logged α) : Prop where
  fits : ∀ s, s.counters = c → ∀ ev ∈ x.events s, ev.Fits limit
  level : ∀ s, s.counters = c → (final (x.erase s)).depth = c.depth
  counters : ∀ s a t, s.counters = c → x.erase s = .ok a t → t.counters = d

/-- From each state of the given depth a parser takes the counts to themselves. -/
def Balanced {α : Type} (limit depth : Nat) (x : Logged α) : Prop :=
  ∀ c : Counters, c.depth = depth → Takes limit c c x

section Rules

variable {α β : Type} {limit depth : Nat} {b c d : Counters}

theorem Takes.bind {x : Logged α} {f : α → Logged β} (hx : Takes limit b c x)
    (hf : ∀ a, Takes limit c d (f a)) : Takes limit b d (x >>= f) where
  fits s hs ev hev := by
    obtain hfirst | ⟨a, t, hok, hsecond⟩ := mem_events_bind.1 hev
    · exact hx.fits s hs ev hfirst
    · exact (hf a).fits t (hx.counters s a t hs hok) ev hsecond
  level s hs := by
    rw [erase_bind]
    have hlevel := hx.level s hs
    cases hr : x.erase s with
    | error e t =>
      rw [hr] at hlevel
      rw [bind_eq_of_error hr]
      exact hlevel
    | ok a t =>
      rw [hr] at hlevel
      have ht := hx.counters s a t hs hr
      rw [bind_eq_of_ok hr, (hf a).level t ht, ← ht]
      exact hlevel
  counters s e u hs hr := by
    rw [erase_bind] at hr
    obtain ⟨a, t, hx', hf'⟩ := bind_eq_ok_iff.1 hr
    exact (hf a).counters t e u (hx.counters s a t hs hx') hf'

theorem Balanced.bind {x : Logged α} {f : α → Logged β} (hx : Balanced limit depth x)
    (hf : ∀ a, Balanced limit depth (f a)) : Balanced limit depth (x >>= f) :=
  fun c hc => (hx c hc).bind fun a => hf a c hc

theorem Balanced.ite {p : Prop} [Decidable p] {x y : Logged α} (hx : Balanced limit depth x)
    (hy : Balanced limit depth y) : Balanced limit depth (if p then x else y) := by
  split
  · exact hx
  · exact hy

theorem balanced_pure (a : α) : Balanced limit depth (pure a : Logged α) := by
  rintro c -
  refine ⟨fun s _ ev hev => absurd hev List.not_mem_nil, fun s hs => ?_, fun s a' t hs hr => ?_⟩
  · exact congrArg Counters.depth hs
  · cases hr
    exact hs

/-- A step of a parser that keeps the level, and takes the counts from `c` to `d` if it succeeds. -/
theorem takes_step {p : Parser α} (hlimit : c.depth ≤ limit)
    (hlevel : ∀ s, s.counters = c → (final (p s)).depth = c.depth)
    (hcounters : ∀ s a t, s.counters = c → p s = .ok a t → t.counters = d) :
    Takes limit c d (step p) where
  fits s hs ev hev := by
    rcases List.mem_cons.1 hev with rfl | hev
    · exact (congrArg Counters.depth hs).trans_le hlimit
    · rw [List.mem_singleton.1 hev]
      exact (hlevel s hs).trans_le hlimit
  level := hlevel
  counters := hcounters

/-- A step that ends with the same counts whether it succeeds or not. -/
theorem takes_step_of_final {p : Parser α} (hlimit : c.depth ≤ limit) (hdepth : d.depth = c.depth)
    (hfinal : ∀ s, s.counters = c → (final (p s)).counters = d) : Takes limit c d (step p) := by
  refine takes_step hlimit (fun s hs => ?_) fun s a t hs hr => ?_
  · exact (congrArg Counters.depth (hfinal s hs)).trans hdepth
  · have ht := hfinal s hs
    rw [hr] at ht
    exact ht

theorem balanced_step {p : Parser α} (hlimit : depth ≤ limit) (hp : Steady p) :
    Balanced limit depth (step p) := by
  rintro c rfl
  exact takes_step_of_final hlimit rfl fun s hs => (hp.counters_final s).trans hs

theorem takes_unexpected (wanted : String) (hlimit : c.depth ≤ limit) :
    Takes limit c d (step (unexpected wanted : Parser α)) := by
  refine takes_step hlimit (fun s hs => ?_) fun s a t _ hr => by cases hr
  exact congrArg Counters.depth hs

theorem takes_enterGroup (hlimit : c.depth ≤ limit) :
    Takes limit c c.inGroup (step (modify fun s => { s with nesting := s.nesting + 1 })) :=
  takes_step_of_final hlimit rfl fun _ hs => congrArg Counters.inGroup hs

theorem takes_openGroup (hlimit : c.depth ≤ limit) : Takes limit c c.inGroup (step openGroup) :=
  takes_step_of_final hlimit rfl fun s hs =>
    (steady_advance.counters_final { s with nesting := s.nesting + 1 }).trans
      (congrArg Counters.inGroup hs)

theorem takes_leaveGroup : Takes limit c.inGroup c leaveGroup := by
  refine ⟨fun s hs ev hev => ?_, fun s hs => ?_, fun s a t hs hr => ?_⟩
  · rw [List.mem_singleton.1 hev]
    exact (Nat.succ_pos c.nesting).trans_eq (congrArg Counters.nesting hs).symm
  · exact congrArg Counters.depth hs
  · cases hr
    exact congrArg (fun c : Counters => { c with nesting := c.nesting - 1 }) hs

/-- A group is closed where one is open. -/
theorem takes_closeGroup (sign : Symbol) (hlimit : c.depth ≤ limit) :
    Takes limit c.inGroup c (closeGroup sign) := by
  refine (balanced_step hlimit (steady_check sign) c.inGroup rfl).bind fun found => ?_
  split
  · exact takes_leaveGroup.bind fun _ => balanced_step hlimit steady_advance c rfl
  · exact takes_unexpected _ hlimit

/-- What stands in a group that is opened before it and closed behind it. -/
theorem Balanced.group {x : Logged α} {f : α → Logged β} (hlimit : depth ≤ limit)
    (hx : Balanced limit depth x) (sign : Symbol) (hf : ∀ a, Balanced limit depth (f a)) :
    Balanced limit depth (do
      step openGroup
      let a ← x
      closeGroup sign
      f a) := by
  rintro c rfl
  refine (takes_openGroup hlimit).bind fun _ => (hx c.inGroup rfl).bind fun a => ?_
  exact (takes_closeGroup sign hlimit).bind fun _ => hf a c rfl

/-- A level is closed behind what it was opened for, also where that fails. -/
theorem Balanced.nested {x : Logged α} (hlimit : depth + 1 ≤ limit)
    (hx : Balanced limit (depth + 1) x) : Balanced limit depth (nested x) := by
  rintro c rfl
  have hdeeper := hx c.deeper rfl
  have hs' {s : State} (hs : s.counters = c) :
      State.counters { s with depth := s.depth + 1 } = c.deeper := congrArg Counters.deeper hs
  refine ⟨fun s hs ev hev => ?_, fun s hs => ?_, fun s a t hs hr => ?_⟩
  · rcases List.mem_cons.1 hev with rfl | hev
    · exact (congrArg Counters.depth (hs' hs)).trans_le hlimit
    · exact hdeeper.fits _ (hs' hs) ev hev
  · have hlevel := hdeeper.level _ (hs' hs)
    rw [erase_nested, Parser.nested]
    cases hr : x.erase { s with depth := s.depth + 1 } with
    | ok a t =>
      rw [hr] at hlevel
      exact congrArg (· - 1) hlevel
    | error e t =>
      rw [hr] at hlevel
      exact congrArg (· - 1) hlevel
  · rw [erase_nested, Parser.nested] at hr
    cases hx' : x.erase { s with depth := s.depth + 1 } with
    | error e u =>
      rw [hx'] at hr
      cases hr
    | ok a' u =>
      rw [hx'] at hr
      cases hr
      have hu := hdeeper.counters _ _ _ (hs' hs) hx'
      exact congrArg (fun c : Counters => { c with depth := c.depth - 1 }) hu

theorem Balanced.asking {x : Logged α} {levels : Nat} (hx : Balanced limit depth x)
    (hlevels : depth + levels = limit) : Balanced limit depth (x.asking levels) := by
  rintro c rfl
  refine ⟨fun s hs ev hev => ?_, (hx c rfl).level, (hx c rfl).counters⟩
  rcases List.mem_cons.1 hev with rfl | hev
  · rw [← hlevels, ← hs]
    rfl
  · exact (hx c rfl).fits s hs ev hev

theorem Balanced.whole {x : Logged α} {what : Construct} (hx : Balanced limit depth x)
    (hblock : what = .expression → ∀ s, (final (x.erase s)).blockDepth = s.blockDepth) :
    Balanced limit depth (x.whole what) := by
  rintro c rfl
  refine ⟨fun s hs ev hev => ?_, (hx c rfl).level, (hx c rfl).counters⟩
  rcases List.mem_append.1 hev with hev | hev
  · exact (hx c rfl).fits s hs ev hev
  rw [List.mem_singleton.1 hev]
  refine ⟨((hx c rfl).level s hs).trans (congrArg Counters.depth hs).symm,
    fun hwhat => hblock hwhat s, fun hsuccess => ?_⟩
  cases hr : x.erase s with
  | ok a t => exact ((hx c rfl).counters s a t hs hr).trans hs.symm
  | error e t =>
    rw [hr] at hsuccess
    cases hsuccess

end Rules

/-! ## Expressions -/

section Expressions

variable {limit depth : Nat} (hlimit : depth ≤ limit) {x inner deeper : Logged Expr}
include hlimit

theorem balanced_chainFrom (op? : Token → Option BinaryOp) (hx : Balanced limit depth x) :
    ∀ (size : Nat) (left : Expr), Balanced limit depth (chainFrom op? x size left)
  | 0, left => balanced_pure left
  | size + 1, left => by
    refine (balanced_step hlimit steady_current).bind fun t => ?_
    split
    · exact balanced_pure left
    · exact (balanced_step hlimit steady_advance).bind fun _ => hx.bind fun _ =>
        balanced_chainFrom op? hx size _

theorem Balanced.chain (size : Nat) (op? : Token → Option BinaryOp) (hx : Balanced limit depth x) :
    Balanced limit depth (chain size op? x) :=
  hx.bind fun left => balanced_chainFrom hlimit op? hx size left

theorem Balanced.rangeOf (hx : Balanced limit depth x) : Balanced limit depth (rangeOf x) := by
  have hcheck := balanced_step hlimit (steady_check .dotDot)
  have hadvance := balanced_step hlimit steady_advance
  refine hx.bind fun _ => hcheck.bind fun _ => .ite ?_ (balanced_pure _)
  refine hadvance.bind fun _ => hx.bind fun _ => hcheck.bind fun _ => .ite ?_ (balanced_pure _)
  exact hadvance.bind fun _ => hx.bind fun _ => balanced_pure _

theorem Balanced.expressionOf (size : Nat) (hx : Balanced limit depth x) :
    Balanced limit depth (expressionOf size x) := by
  have hsum := (hx.chain hlimit size productOp?).chain hlimit size sumOp?
  exact (((hsum.rangeOf hlimit).chain hlimit size _).chain hlimit size _).chain hlimit size _

theorem balanced_itemsFrom (hx : Balanced limit depth x) (closer : Symbol) :
    ∀ size : Nat, Balanced limit depth (itemsFrom x closer size)
  | 0 => balanced_pure _
  | size + 1 => by
    refine (balanced_step hlimit (steady_check closer)).bind fun _ => .ite (balanced_pure _) ?_
    refine hx.bind fun _ => (balanced_step hlimit (steady_check .comma)).bind fun _ => .ite ?_
      (balanced_pure _)
    exact (balanced_step hlimit steady_advance).bind fun _ =>
      (balanced_itemsFrom hx closer size).bind fun _ => balanced_pure _

theorem Balanced.items (size : Nat) (hx : Balanced limit depth x) (closer : Symbol) :
    Balanced limit depth (items size x closer) :=
  (balanced_itemsFrom hlimit hx closer size).group hlimit closer balanced_pure

theorem Balanced.primary (size : Nat) (hinner : Balanced limit depth inner) :
    Balanced limit depth (primary size inner) := by
  refine (balanced_step hlimit steady_current).bind fun t => ?_
  split
  case h_8 => exact hinner.group hlimit _ balanced_pure
  case h_9 => exact (hinner.items hlimit size _).bind fun _ => balanced_pure _
  case h_10 => exact balanced_step hlimit (steady_unexpected _)
  all_goals exact balanced_step hlimit (steady_finish _)

theorem balanced_suffixesFrom (bound : Nat) (hinner : Balanced limit depth inner) :
    ∀ (size : Nat) (e : Expr), Balanced limit depth (suffixesFrom bound inner size e)
  | 0, e => balanced_pure e
  | size + 1, e => by
    have hitems := hinner.items hlimit bound .rightParen
    refine (balanced_step hlimit steady_current).bind fun t => ?_
    split
    · refine (balanced_step hlimit steady_advance).bind fun _ => ?_
      refine (balanced_step hlimit (steady_expectName _)).bind fun name => ?_
      refine (balanced_step hlimit (steady_check _)).bind fun _ => .ite ?_ ?_
      · exact hitems.bind fun _ => balanced_suffixesFrom bound hinner size _
      · exact (balanced_pure _).bind fun _ => balanced_suffixesFrom bound hinner size _
    · exact hinner.group hlimit _ fun _ => balanced_suffixesFrom bound hinner size _
    · exact hitems.bind fun _ => balanced_suffixesFrom bound hinner size _
    · exact balanced_pure e

theorem Balanced.operandOf (size : Nat) (hinner : Balanced limit depth inner)
    (hdeeper : Balanced limit depth deeper) :
    Balanced limit depth (operandOf size inner deeper) := by
  have hadvance := balanced_step hlimit steady_advance
  refine (balanced_step hlimit steady_current).bind fun t => ?_
  split
  · exact hadvance.bind fun _ => hdeeper.bind fun _ => balanced_pure _
  · refine (hinner.primary hlimit size).bind fun e => ?_
    refine (balanced_suffixesFrom hlimit size hinner size e).bind fun _ => ?_
    refine (balanced_step hlimit (steady_check _)).bind fun _ => .ite ?_ (balanced_pure _)
    exact hadvance.bind fun _ => hdeeper.bind fun _ => balanced_pure _

end Expressions

/-- An expression leaves the blocks alone, also where it fails. -/
theorem blockDepth_final_expression (size levels : Nat) (s : State) :
    (final (Parser.expression size levels s)).blockDepth = s.blockDepth :=
  (keeps_expression (stable_blockDepth s.blockDepth) size levels rfl).final

theorem Balanced.expression {limit depth size levels : Nat} (hlimit : depth ≤ limit)
    (hoperand : Balanced limit depth (operand size levels)) :
    Balanced limit depth (expression size levels) := by
  refine (hoperand.expressionOf hlimit size).whole fun _ s => ?_
  rw [erase_expressionOf, erase_operand]
  exact blockDepth_final_expression size levels s

/-- With a level left to open for each one that is not open yet, never too many are open. -/
theorem balanced_operand (limit size : Nat) :
    ∀ levels depth : Nat, depth + levels = limit → Balanced limit depth (operand size levels)
  | 0, depth, h => (balanced_step (Nat.le_of_eq h) steady_tooDeep).asking h
  | levels + 1, depth, h => by
    have hoperand := balanced_operand limit size levels (depth + 1) (by omega)
    have hinner := Balanced.expression (by omega) hoperand
    exact ((hinner.operandOf (by omega) size hoperand).nested (by omega)).asking h

theorem balanced_expression {limit depth levels : Nat} (size : Nat) (h : depth + levels = limit) :
    Balanced limit depth (expression size levels) :=
  .expression (by omega) (balanced_operand limit size levels depth h)

end Logged

/-! ## Actions -/

/-- How an action that began in the given state may end. -/
def Settled {α : Type} (begin : State) : EStateM.Result Error State α → Prop
  | .ok _ t => t.counters = begin.counters
  | .error _ t => t.depth = begin.depth

section Settled

variable {α β : Type} {begin s : State}

theorem Steady.settled {p : Parser α} (hp : Steady p) (hs : s.counters = begin.counters) :
    Settled begin (p s) := by
  have hfinal := (hp.counters_final s).trans hs
  cases hr : p s with
  | ok a t =>
    rw [hr] at hfinal
    exact hfinal
  | error e t =>
    rw [hr] at hfinal
    exact congrArg Counters.depth hfinal

theorem Steady.bind_settled {p : Parser α} {f : α → Parser β} (hp : Steady p)
    (hdepth : s.depth = begin.depth)
    (hf : ∀ a t, t.counters = s.counters → Settled begin (f a t)) :
    Settled begin ((p >>= f) s) := by
  have hfinal := hp.counters_final s
  cases hr : p s with
  | ok a t =>
    rw [hr] at hfinal
    rw [bind_eq_of_ok hr]
    exact hf a t hfinal
  | error e t =>
    rw [hr] at hfinal
    rw [bind_eq_of_error hr]
    exact (congrArg Counters.depth hfinal).trans hdepth

/-- A command goes back to the groups that were open at its first token. -/
theorem settled_commandAt (hblock : s.blockDepth = begin.blockDepth)
    (hdepth : s.depth = begin.depth) (reading : Option Reading) : Settled begin (commandAt begin reading s) := by
  have hwords : Steady (do
      let words ← commandFrom begin.origin begin.current.span
      return Action.command ⟨words, reading⟩) :=
    (steady_commandFrom _ _).bind fun _ => steady_pure _
  refine hwords.settled (s := { s with nesting := begin.nesting }) ?_
  rw [State.counters, State.counters, hblock, hdepth]

/-- An action that is tried as an expression in vain has closed its blocks and levels, so that only
the groups are to be counted anew. -/
theorem settled_settle (known : Option String) {result : Except Error Expr}
    (hblock : s.blockDepth = begin.blockDepth) (hdepth : s.depth = begin.depth)
    (hresult : ∀ e, result = .ok e → s.counters = begin.counters) :
    Settled begin (settle begin known result s) := by
  have hcommand (reading : Option Reading) {t : State} (ht : t.counters = s.counters) :
      Settled begin (commandAt begin reading t) :=
    settled_commandAt ((congrArg Counters.blockDepth ht).trans hblock)
      ((congrArg Counters.depth ht).trans hdepth) reading
  have hreading (name : String) (complete : Bool) {t : State} (ht : t.counters = s.counters) :
      Settled begin ((readingOf name result complete >>= commandAt begin) t) :=
    (steady_readingOf name result complete).bind_settled
      ((congrArg Counters.depth ht).trans hdepth) fun reading u hu => hcommand reading (hu.trans ht)
  unfold settle
  cases result with
  | ok e =>
    refine (steady_isComplete e).bind_settled hdepth fun complete t ht => ?_
    cases known with
    | some name => exact hreading name complete ht
    | none =>
      cases complete with
      | true => exact ht.trans (hresult e rfl)
      | false =>
        dsimp only
        split
        · exact hcommand none ht
        · exact (congrArg Counters.depth ht).trans hdepth
  | error e =>
    cases known with
    | some name => exact hreading name false rfl
    | none =>
      change Settled begin ((if mayStartCommand begin.current.token then commandAt begin none
        else throw e) s)
      split
      · exact hcommand none rfl
      · exact hdepth

theorem Settled.depth_final {r : EStateM.Result Error State α} (h : Settled begin r) :
    (final r).depth = begin.depth := by
  cases r with
  | ok a t => exact congrArg Counters.depth h
  | error e t => exact h

end Settled

namespace Logged

section Action

variable {limit depth : Nat} {expr : Logged Expr}

/-- What follows a look at the state. -/
theorem balanced_get {α : Type} {f : State → Logged α} (hlimit : depth ≤ limit)
    (hf : ∀ s, s.depth = depth → Takes limit s.counters s.counters (f s)) :
    Balanced limit depth (step get >>= f) := by
  rintro c rfl
  refine ⟨fun s hs ev hev => ?_, fun s hs => ?_, fun s a t hs hr => ?_⟩
  · obtain hget | ⟨_, _, hok, hrest⟩ := mem_events_bind.1 hev
    · exact (balanced_step hlimit steady_get c rfl).fits s hs ev hget
    · cases hok
      exact (hf s (congrArg Counters.depth hs)).fits s rfl ev hrest
  · exact ((hf s (congrArg Counters.depth hs)).level s rfl).trans (congrArg Counters.depth hs)
  · exact ((hf s (congrArg Counters.depth hs)).counters s a t rfl hr).trans hs

/-- Trying an expression leaves a state from which the action settles. -/
theorem exists_attempt_eq (hexpr : Balanced limit depth expr)
    (hblock : ∀ s, (final (expr.erase s)).blockDepth = s.blockDepth) {begin s : State}
    (hs : s.counters = begin.counters) (hbegin : begin.depth = depth) (known : Option String) :
    ∃ result t, Parser.attempt expr.erase s = .ok result t ∧ t.depth = begin.depth
      ∧ Settled begin (settle begin known result t) := by
  have htakes := hexpr begin.counters hbegin
  have hlevel : (final (expr.erase s)).depth = begin.depth := htakes.level s hs
  have hblock' := (hblock s).trans (congrArg Counters.blockDepth hs)
  unfold Parser.attempt
  cases hr : expr.erase s with
  | ok e t =>
    rw [hr] at hlevel hblock'
    exact ⟨_, _, rfl, hlevel, settled_settle known hblock' hlevel fun _ _ =>
      htakes.counters s e t hs hr⟩
  | error e t =>
    rw [hr] at hlevel hblock'
    exact ⟨_, _, rfl, hlevel, settled_settle known hblock' hlevel fun _ h => by cases h⟩

theorem takes_settle (hlimit : depth ≤ limit) (hexpr : Balanced limit depth expr)
    (hblock : ∀ s, (final (expr.erase s)).blockDepth = s.blockDepth) {begin : State}
    (hbegin : begin.depth = depth) (known : Option String) :
    Takes limit begin.counters begin.counters
      (attempt expr >>= fun result => step (settle begin known result)) := by
  have hrun {s : State} (hs : s.counters = begin.counters) : Settled begin
      ((attempt expr >>= fun result => step (settle begin known result)).erase s) := by
    obtain ⟨result, t, hattempt, -, hsettled⟩ := exists_attempt_eq hexpr hblock hs hbegin known
    rwa [erase_bind, erase_attempt, bind_eq_of_ok hattempt]
  refine ⟨fun s hs ev hev => ?_, fun s hs => (hrun hs).depth_final, fun s a t hs hr => ?_⟩
  · obtain ⟨result, t, hattempt, hdepth, hsettled⟩ := exists_attempt_eq hexpr hblock hs hbegin known
    obtain htried | ⟨result', t', hattempt', hrest⟩ := mem_events_bind.1 hev
    · exact (hexpr _ hbegin).fits s hs ev htried
    · cases hattempt.symm.trans hattempt'
      have hbegin' : begin.depth ≤ limit := hbegin.trans_le hlimit
      rcases List.mem_cons.1 hrest with rfl | hrest
      · exact hdepth.trans_le hbegin'
      · rw [List.mem_singleton.1 hrest]
        exact hsettled.depth_final.trans_le hbegin'
  · have hsettled := hrun hs
    rw [hr] at hsettled
    exact hsettled

/-- **An action that is read leaves the counts as they were**, also where its expression was given
up inside a group. -/
theorem Balanced.action (hlimit : depth ≤ limit) (commands : CommandSet)
    (hexpr : Balanced limit depth expr)
    (hblock : ∀ s, (final (expr.erase s)).blockDepth = s.blockDepth) :
    Balanced limit depth (action commands expr) := by
  refine Balanced.whole (balanced_get hlimit fun begin hbegin => ?_) fun h => by cases h
  refine (balanced_step hlimit (steady_knownCommand? commands) _ hbegin).bind fun known => ?_
  exact takes_settle hlimit hexpr hblock hbegin known

end Action

/-! ## Statements -/

section Statements

variable {limit depth : Nat} (hlimit : depth ≤ limit) {expr : Logged Expr} {action : Logged Action}
  {block : Logged (List Stmt)} {statement : Logged Stmt}
include hlimit

theorem balanced_otherwiseFrom (hexpr : Balanced limit depth expr)
    (hblock : Balanced limit depth block) :
    ∀ size : Nat, Balanced limit depth (otherwiseFrom expr block size)
  | 0 => balanced_pure _
  | size + 1 => by
    refine (balanced_step hlimit steady_skipToElse).bind fun _ => .ite ?_ (balanced_pure _)
    refine (balanced_step hlimit (steady_expectKeyword _)).bind fun _ => ?_
    refine (balanced_step hlimit steady_current).bind fun _ => .ite ?_ ?_
    · refine (balanced_step hlimit steady_advance).bind fun _ => hexpr.bind fun _ => ?_
      exact hblock.bind fun _ => (balanced_otherwiseFrom hexpr hblock size).bind fun _ =>
        balanced_pure _
    · exact hblock.bind fun _ => balanced_pure _

theorem Balanced.conditional (size : Nat) (hexpr : Balanced limit depth expr)
    (hblock : Balanced limit depth block) :
    Balanced limit depth (conditional size expr block) := by
  refine (balanced_step hlimit (steady_expectKeyword _)).bind fun _ => hexpr.bind fun _ => ?_
  exact hblock.bind fun _ => (balanced_otherwiseFrom hlimit hexpr hblock size).bind fun _ =>
    balanced_pure _

theorem Balanced.loop (hexpr : Balanced limit depth expr) (hblock : Balanced limit depth block) :
    Balanced limit depth (loop expr block) := by
  refine (balanced_step hlimit (steady_expectKeyword _)).bind fun _ => ?_
  refine (balanced_step hlimit (steady_expectName _)).bind fun _ => ?_
  refine (balanced_step hlimit (steady_expectKeyword _)).bind fun _ => ?_
  exact hexpr.bind fun _ => hblock.bind fun _ => balanced_pure _

/-- The brackets of parameters are counted as a group, though they are no expression's. -/
theorem balanced_parameters (size : Nat) : Balanced limit depth (parameters size) := by
  refine (balanced_step hlimit (steady_expect _)).bind fun _ => ?_
  rintro c rfl
  refine (takes_enterGroup hlimit).bind fun _ => ?_
  refine (balanced_step hlimit (steady_listed size) c.inGroup rfl).bind fun _ => ?_
  exact (takes_closeGroup _ hlimit).bind fun _ => balanced_pure _ c rfl

theorem Balanced.functionDef (size : Nat) (hblock : Balanced limit depth block) :
    Balanced limit depth (functionDef size block) := by
  refine (balanced_step hlimit (steady_expectKeyword _)).bind fun _ => ?_
  refine (balanced_step hlimit (steady_expectName _)).bind fun _ => ?_
  exact (balanced_parameters hlimit size).bind fun _ => hblock.bind fun _ => balanced_pure _

theorem Balanced.giveBack (haction : Balanced limit depth action) :
    Balanced limit depth (giveBack action) := by
  refine (balanced_step hlimit (steady_expectKeyword _)).bind fun _ => ?_
  refine (balanced_step hlimit steady_atStatementEnd).bind fun _ => .ite (balanced_pure _) ?_
  exact haction.bind fun _ => balanced_pure _

theorem Balanced.actionStatement (haction : Balanced limit depth action) :
    Balanced limit depth (actionStatement action) := by
  refine haction.bind fun a => ?_
  split
  · refine (balanced_step hlimit (steady_check _)).bind fun _ => .ite ?_ (balanced_pure _)
    exact (balanced_step hlimit steady_advance).bind fun _ => haction.bind fun _ => balanced_pure _
  · exact balanced_pure _

theorem Balanced.assignment (haction : Balanced limit depth action) (name : String) :
    Balanced limit depth (assignment action name) := by
  have hadvance := balanced_step hlimit steady_advance
  exact hadvance.bind fun _ => hadvance.bind fun _ => haction.bind fun _ => balanced_pure _

theorem Balanced.lineStatement (haction : Balanced limit depth action) :
    Balanced limit depth (lineStatement action) := by
  refine (balanced_step hlimit steady_current).bind fun t => ?_
  split
  · exact haction.giveBack hlimit
  · refine (balanced_step hlimit steady_peek?).bind fun next => ?_
    split
    · exact haction.assignment hlimit _
    · exact haction.actionStatement hlimit
  · exact haction.actionStatement hlimit

theorem Balanced.simpleStatement (haction : Balanced limit depth action) :
    Balanced limit depth (simpleStatement action) :=
  (haction.lineStatement hlimit).bind fun _ =>
    (balanced_step hlimit steady_expectStatementEnd).bind fun _ => balanced_pure _

theorem balanced_blockFrom (bound : Nat) (hstatement : Balanced limit depth statement) :
    ∀ size : Nat, Balanced limit depth (blockFrom bound statement size)
  | 0 => balanced_pure _
  | size + 1 => by
    refine (balanced_step hlimit (steady_skipSeparators bound)).bind fun _ => ?_
    refine (balanced_step hlimit (steady_check _)).bind fun _ => .ite (balanced_pure _) ?_
    refine (balanced_step hlimit steady_current).bind fun _ =>
      .ite (balanced_step hlimit (steady_unexpected _)) ?_
    exact hstatement.bind fun _ => (balanced_blockFrom bound hstatement size).bind fun _ =>
      balanced_pure _

/-- A block is counted from its opening brace to its closing one. -/
theorem Balanced.blockOf (size : Nat) (hstatement : Balanced limit depth statement) :
    Balanced limit depth (blockOf size statement) := by
  refine (balanced_step hlimit (steady_expect _)).bind fun _ => ?_
  rintro c rfl
  have henter : Takes limit c c.inBlock
      (step (modify fun s => { s with blockDepth := s.blockDepth + 1 })) :=
    takes_step_of_final hlimit rfl fun _ hs => congrArg Counters.inBlock hs
  have hleave : Takes limit c.inBlock c
      (step (modify fun s => { s with blockDepth := s.blockDepth - 1 })) :=
    takes_step_of_final hlimit rfl fun _ hs =>
      congrArg (fun c : Counters => { c with blockDepth := c.blockDepth - 1 }) hs
  refine henter.bind fun _ => ?_
  refine (balanced_blockFrom hlimit size hstatement size c.inBlock rfl).bind fun _ => ?_
  refine hleave.bind fun _ => ?_
  exact (balanced_step hlimit (steady_expect _) c rfl).bind fun _ => balanced_pure _ c rfl

theorem Balanced.statementOf (size : Nat) (hexpr : Balanced limit depth expr)
    (haction : Balanced limit depth action) (hblock : Balanced limit depth block) :
    Balanced limit depth (statementOf size expr action block) := by
  refine (balanced_step hlimit steady_current).bind fun t => ?_
  split
  · exact hexpr.conditional hlimit size hblock
  · exact hexpr.loop hlimit hblock
  · exact hblock.functionDef hlimit size
  · exact hblock.bind fun _ => balanced_pure _
  · exact haction.simpleStatement hlimit

theorem balanced_programFrom (bound : Nat) (hstatement : Balanced limit depth statement) :
    ∀ size : Nat, Balanced limit depth (programFrom bound statement size)
  | 0 => balanced_pure _
  | size + 1 => by
    refine (balanced_step hlimit (steady_skipSeparators bound)).bind fun _ => ?_
    refine (balanced_step hlimit steady_current).bind fun _ => .ite (balanced_pure _) ?_
    refine .ite (balanced_step hlimit (steady_unexpected _)) ?_
    exact hstatement.bind fun _ => (balanced_programFrom bound hstatement size).bind fun _ =>
      balanced_pure _

end Statements

theorem balanced_action (commands : CommandSet) {limit depth levels : Nat} (size : Nat)
    (h : depth + levels = limit) :
    Balanced limit depth (action commands (expression size levels)) := by
  refine (balanced_expression size h).action (by omega) commands fun s => ?_
  rw [erase_expression]
  exact blockDepth_final_expression size levels s

/-- **A statement that is read leaves the counts as they were**, and all that happens in it fits the
limit. -/
theorem balanced_statement (commands : CommandSet) (limit size : Nat) :
    ∀ levels depth : Nat, depth + levels = limit →
      Balanced limit depth (statement commands size levels)
  | 0, depth, h => by
    have hblock : Balanced limit depth
        (whole .block (asking 0 (step tooDeep : Logged (List Stmt)))) :=
      ((balanced_step (Nat.le_of_eq h) steady_tooDeep).asking h).whole fun h => by cases h
    exact ((balanced_expression size h).statementOf (Nat.le_of_eq h) size
      (balanced_action commands size h) hblock).whole fun h => by cases h
  | levels + 1, depth, h => by
    have hstatement := balanced_statement commands limit size levels (depth + 1) (by omega)
    have hblock : Balanced limit depth
        (whole .block (asking (levels + 1)
          (nested (blockOf size (statement commands size levels))))) :=
      (((hstatement.blockOf (by omega) size).nested (by omega)).asking h).whole fun h => by cases h
    exact ((balanced_expression size h).statementOf (by omega) size
      (balanced_action commands size h) hblock).whole fun h => by cases h

/-- From every state the counts are those it ends with. -/
theorem Balanced.counters_eq {α : Type} {limit : Nat} {x : Logged α} {s t : State} {a : α}
    (hx : Balanced limit s.depth x) (h : x.erase s = .ok a t) : t.counters = s.counters :=
  (hx s.counters rfl).counters s a t rfl h

end Logged

/-! ## Sessions of a parser -/

/-- What a parser can be asked for. -/
inductive Call
  | program
  | statement
  | expression

/-- Answer a call. The loops of the grammar are bounded by `size`. -/
def Call.run (commands : CommandSet) (size : Nat) : Call → Parser Unit
  | .program => do let _ ← programFrom size (Parser.statement commands size maxDepth) size
  | .statement => do let _ ← Parser.statement commands size maxDepth
  | .expression => do let _ ← Parser.expression size maxDepth

/-- Answer a call, with what happens in it. -/
def Call.log (commands : CommandSet) (size : Nat) : Call → Logged Unit
  | .program => do let _ ← Logged.programFrom size (Logged.statement commands size maxDepth) size
  | .statement => do let _ ← Logged.statement commands size maxDepth
  | .expression => do let _ ← Logged.expression size maxDepth

/-- **Forgetting what happens in a call gives the call.** -/
theorem Call.erase_log (commands : CommandSet) (size : Nat) (call : Call) :
    (call.log commands size).erase = call.run commands size := by
  cases call <;> simp only [Call.log, Call.run, Logged.erase_bind, Logged.erase_pure,
    Logged.erase_programFrom, Logged.erase_statement, Logged.erase_expression]

theorem Call.balanced_log (commands : CommandSet) (size : Nat) (call : Call) :
    Logged.Balanced maxDepth 0 (call.log commands size) := by
  have hlimit : 0 + maxDepth = maxDepth := Nat.zero_add _
  have hstatement := Logged.balanced_statement commands maxDepth size maxDepth 0 hlimit
  cases call with
  | program =>
    exact (Logged.balanced_programFrom (Nat.zero_le _) size hstatement size).bind fun _ =>
      Logged.balanced_pure ()
  | statement => exact hstatement.bind fun _ => Logged.balanced_pure ()
  | expression =>
    exact (Logged.balanced_expression size hlimit).bind fun _ => Logged.balanced_pure ()

/-- The state of a parser after the given calls, failed ones included. -/
def State.afterCalls (commands : CommandSet) (size : Nat) (s : State) (calls : List Call) : State :=
  calls.foldl (fun s call => final (call.run commands size s)) s

/-- Between two calls no level is open. -/
theorem State.depth_afterCalls (commands : CommandSet) (size : Nat) {s : State} (hs : s.depth = 0)
    (calls : List Call) : (s.afterCalls commands size calls).depth = 0 := by
  induction calls generalizing s with
  | nil => exact hs
  | cons call calls ih =>
    have hlevel := (Call.balanced_log commands size call s.counters hs).level s rfl
    rw [Call.erase_log] at hlevel
    exact ih (hlevel.trans hs)

theorem depth_start {source : List Char} {s : State} (h : start source = .ok s) : s.depth = 0 :=
  (readFrom_fields h).2.2

/-- All that happens in a session fits the limit. -/
theorem fits_of_session (commands : CommandSet) {source : String} {s : State}
    (h : start source.toList = .ok s) (size : Nat) (calls : List Call) (call : Call) :
    ∀ ev ∈ (call.log commands size).events (s.afterCalls commands size calls),
      ev.Fits maxDepth := by
  have hdepth := State.depth_afterCalls commands size (depth_start h) calls
  exact (Call.balanced_log commands size call _ hdepth).fits _ rfl

/-- **A text is refused where `maxDepth` levels are open.** Wherever in a session a level is asked
for, as many may still be opened as `maxDepth` leaves, so there is none exactly if all are open. -/
theorem levels_eq_of_ask (commands : CommandSet) {source : String} {s : State}
    (h : start source.toList = .ok s) (size : Nat) (calls : List Call) (call : Call) {levels : Nat}
    {t : State}
    (hask : .ask levels t ∈ (call.log commands size).events (s.afterCalls commands size calls)) :
    levels = maxDepth - t.depth ∧ (levels = 0 ↔ maxDepth ≤ t.depth) := by
  have hfits : t.depth + levels = maxDepth := fits_of_session commands h size calls call _ hask
  omega

/-- **The counts of a parser are balanced.** From any state, an expression, a block, a statement and
an action that is read leaves the counts of groups, blocks and levels as they were, an action also
where its expression was given up inside a group; an expression that fails leaves those of blocks
and levels. In a session, whatever calls were answered before and whether they failed or not, the
same holds of each of them inside a call; no group is closed that is not open, never more levels are
open than `maxDepth`, and those that may still be opened are the others. What happens in a call is read off the call itself: forgetting it gives
the call back. -/
theorem counters_balanced (commands : CommandSet) :
    (∀ (size levels : Nat) (s : State),
      (∀ e t, expression size levels s = .ok e t → t.counters = s.counters)
      ∧ (∀ e t, expression size levels s = .error e t →
        t.depth = s.depth ∧ t.blockDepth = s.blockDepth)
      ∧ (∀ body t, nested (blockOf size (statement commands size levels)) s = .ok body t →
        t.counters = s.counters)
      ∧ (∀ stmt t, statement commands size levels s = .ok stmt t → t.counters = s.counters)
      ∧ ∀ a t, action commands (expression size levels) s = .ok a t → t.counters = s.counters)
    ∧ (∀ (size : Nat) (call : Call), (call.log commands size).erase = call.run commands size)
    ∧ ∀ (source : String) (s : State), start source.toList = .ok s →
      ∀ (size : Nat) (calls : List Call) (call : Call),
        ∀ ev ∈ (call.log commands size).events (s.afterCalls commands size calls),
          ev.Fits maxDepth := by
  refine ⟨fun size levels s => ⟨fun e t h => ?_, fun e t h => ?_, fun body t h => ?_,
    fun stmt t h => ?_, fun a t h => ?_⟩, Call.erase_log commands,
    fun source s h size calls call => ?_⟩
  · rw [← Logged.erase_expression] at h
    exact (Logged.balanced_expression size rfl).counters_eq h
  · have hbalanced : Logged.Balanced (s.depth + levels) s.depth (Logged.expression size levels) :=
      Logged.balanced_expression size rfl
    have hlevel := (hbalanced s.counters rfl).level s rfl
    have hblock := Logged.blockDepth_final_expression size levels s
    rw [Logged.erase_expression, h] at hlevel
    rw [h] at hblock
    exact ⟨hlevel, hblock⟩
  · have hstatement := Logged.balanced_statement commands (s.depth + 1 + levels) size levels
      (s.depth + 1) rfl
    have hblock := (hstatement.blockOf (Nat.le_add_right _ _) size).nested (Nat.le_add_right _ _)
    rw [← Logged.erase_statement, ← Logged.erase_blockOf, ← Logged.erase_nested] at h
    exact hblock.counters_eq h
  · rw [← Logged.erase_statement] at h
    exact (Logged.balanced_statement commands _ size levels _ rfl).counters_eq h
  · rw [← Logged.erase_expression, ← Logged.erase_action] at h
    exact (Logged.balanced_action commands size rfl).counters_eq h
  · exact fits_of_session commands h size calls call

end Parser

end CommandScript
