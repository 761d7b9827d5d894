import NestedRecord.Proofs.Join.Snapshot

/-!
# One instance in the course of a call

A call of a joined store does many things, but one of them at most writes a given instance of an
attachment, or of the target of an external aggregate. What the call makes of the instance is
therefore what this one action makes of it.

The argument is by counting. Of the actions that a procedure places, those that write at or around
an instance are the attachments of the store at the same path or above, and under the condition
`Spares` there is only one; so the events of a call fall into the one of this action at this
element, those before it and those after it, and all but the one are known to leave the instance
alone.

- `Joining.Listed` is an attachment whose records declare no shape, `Joining.Bare` one that is also
  declared once, and `Joining.Supplied` an external aggregate.
- `Bare.run_attaches` and `Supplied.run_supplies` are the call at an instance of theirs.
- `Supplied.run_persists` also holds of an instance that has no owner: its state is kept, although
  nothing shows it.
-/

namespace NestedRecord

namespace Joining

open JoinProcedures (machine)

variable {blueprint : Blueprint} {store : String} {join : Join} {attachment : ResolvedPath}
  {aggregate : ExternalAggregate} {target : ResolvedPath} {cursor : Cursor} {place : Location}
  {surroundings : Surroundings} {procedures : JoinProcedures} {event : Event Action}
  {events : List (Event Action)}

/-- Whether the action is that of an attachment with the given names. -/
def Action.attachesTo (leaf : List String) : Action → Bool
  | .attach attached => decide (attached.leaf = leaf)
  | .feed _ => false

/-- Whether the action is that of the external aggregate of a target. -/
def Action.feeds (path : String) : Action → Bool
  | .attach _ => false
  | .feed supplied => decide (supplied.aggregate.target = path)

/-- At an instance of an attachment, the actions that write there are those of the attachments of
the store at the same path or around it. -/
theorem countP_attachesTo_le (hlevels : blueprint.LevelsDeclared)
    (hcompile : JoinProcedures.compile blueprint store = .ok procedures)
    (hleads : blueprint.resolveLenient join.path = .ok attachment)
    (hfits : cursor.Fits attachment.loops) (delta : Delta) :
    (procedures.program delta).placed.countP (fun entry =>
        decide (cursor.Under {} entry.1) && entry.2.attachesTo attachment.leaf) ≤
      (blueprint.metadata.joinsOf store).countP fun other =>
        decide (other.Attaches ∧ segments other.path <+: segments join.path) := by
  refine JoinProcedures.countP_placed_le hcompile delta
    (fun entry => decide (cursor.Under {} entry.1) && entry.2.attachesTo attachment.leaf) _ ?_
  intro other loops action hstands hsort
  cases hstands with
  | feed => simp [Action.attachesTo] at hsort
  | attachment hattaches hleads' hlevel =>
    obtain ⟨hunder, hleaf⟩ : cursor.Under {} _ ∧ (attachmentAt blueprint other _).leaf = _ := by
      rw [Bool.and_eq_true] at hsort
      exact ⟨of_decide_eq_true hsort.1, of_decide_eq_true hsort.2⟩
    refine decide_eq_true ⟨hattaches, ?_⟩
    rw [← (Blueprint.leads_of_lenient hlevels hleads').2.2,
      ← (Blueprint.leads_of_lenient hlevels hleads).2.2,
      ← ResolvedPath.names_below (Cursor.fits_iff_under_root.mpr hunder),
      ← ResolvedPath.names_below hfits]
    exact ⟨[], by rw [List.append_nil, ← hleaf]; rfl⟩

/-! ## Attachments -/

/-- A to-many attachment whose records declare no shape; no other attachment of its store lies
around it, and a second one at its path is declared in the same way. -/
structure Listed (blueprint : Blueprint) (store : String) (join : Join)
    (attachment : ResolvedPath) : Prop where
  joined : join ∈ blueprint.metadata.joinsOf store
  many : join.cardinality = .many
  leads : blueprint.resolveLenient join.path = .ok attachment
  /-- the records are those of another store -/
  foreign : attachment.isVirtual = true
  spares : Spares blueprint.metadata store join

namespace Listed

theorem attaches (h : Listed blueprint store join attachment) : join.Attaches := by
  rw [Join.Attaches, h.many]
  decide

variable (hlevels : blueprint.LevelsDeclared) (h : Listed blueprint store join attachment)
  (hlevel : attachment.isScalar = false) (hfits : cursor.Fits attachment.loops)

include hlevels h hlevel hfits

/-- An event that writes at, inside or around an instance is that of the attachment, and writes the
instance. -/
theorem eq_of_touches (hevent : FromJoin blueprint store event) {location : Location}
    (htouches : event.action.Touches event.cursor location)
    (hmeets : location <+: cursor.below attachment.leaf ∨
      cursor.below attachment.leaf <+: location) :
    event = ⟨.attach (attachmentAt blueprint join attachment), cursor⟩ ∧
      location = cursor.below attachment.leaf := by
  have hplace : blueprint.AttachedAt join (cursor.below attachment.leaf) :=
    ⟨attachment, h.leads, hlevel, cursor, hfits, rfl⟩
  have heq : location = cursor.below attachment.leaf := by
    rcases hmeets with hstart | hstart
    · exact Joining.eq_of_touches hlevels h.spares hplace hevent htouches hstart
    -- nothing that a store declares lies below records of another one
    obtain ⟨other, hother, loops, hstands, hfits'⟩ := hevent
    obtain ⟨hleads, -, hnames⟩ := Blueprint.leads_of_lenient hlevels h.leads
    have hinside := Location.names_above hstart
    rw [ResolvedPath.names_below hfits] at hinside
    rcases touches_cases hstands hfits' htouches with ⟨hattaches, hattached⟩ | ⟨path, -, hvalue⟩
    · obtain ⟨resolved, hleads', hlevel', c, hc, rfl⟩ := hattached
      obtain ⟨hleads'', -, hnames'⟩ := Blueprint.leads_of_lenient hlevels hleads'
      rw [ResolvedPath.names_below hc] at hinside
      have hequal := hleads.names_eq_of_foreign hlevel h.foreign hleads'' hlevel' hinside
      rw [hnames, hnames'] at hequal
      obtain rfl := h.spares other hother hattaches ⟨[], by rw [List.append_nil, hequal]⟩
      exact (hplace.eq_of_above hleads' hc hstart).symm
    · rw [hvalue.names hlevels] at hinside
      obtain ⟨value, hleads', hscalar, -⟩ := hvalue
      obtain ⟨hleads'', -, hnames', hdeclared⟩ := Blueprint.leads_of_strict hlevels hleads'
      rw [← hnames'] at hinside
      exact absurd hinside
        (hleads.apart_of_foreign hlevel h.foreign hleads'' ⟨hscalar, hdeclared⟩).1
  subst heq
  exact ⟨event_eq_of_touches hlevels h.spares h.leads hlevel hfits hevent htouches, rfl⟩

/-- The event of another action or at another element leaves the instance as it is. -/
theorem act_other (hevent : FromJoin blueprint store event)
    (hne : event ≠ ⟨.attach (attachmentAt blueprint join attachment), cursor⟩) (state : State) :
    (act surroundings event.action event.cursor state).record.locate?
        (cursor.below attachment.leaf) =
      state.record.locate? (cursor.below attachment.leaf) := by
  refine (act_sameOutside event.action event.cursor state _ ?_).2 ?_
  · exact fun location htouches hstart =>
      hne (h.eq_of_touches hlevels hlevel hfits hevent htouches (.inl hstart)).1
  · exact fun location htouches hstart =>
      hne (h.eq_of_touches hlevels hlevel hfits hevent htouches (.inr hstart)).1

/-- The event of an instance replaces its content by that of the change. -/
theorem act_self (surroundings : Surroundings) {state : State}
    (howned : Owned (cursor.below attachment.leaf) state.record) :
    (act surroundings (.attach (attachmentAt blueprint join attachment)) cursor
        state).record.locate? (cursor.below attachment.leaf) =
      (changeAt? surroundings (attachmentAt blueprint join attachment) cursor state.record).elim
        (state.record.locate? (cursor.below attachment.leaf)) (some ·.content) := by
  have hleaf := (Blueprint.leads_of_lenient hlevels h.leads).1.leaf_ne_nil
  cases hchange : changeAt? surroundings (attachmentAt blueprint join attachment) cursor
      state.record with
  | none =>
    have hact : attach surroundings (attachmentAt blueprint join attachment) cursor state =
        state := attach_eq_self fun change hsome => by
      rw [hchange] at hsome
      cases hsome
    exact congrArg (fun state : State => state.record.locate? (cursor.below attachment.leaf)) hact
  | some change =>
    have hset :
        (cursor.setAt? state.record cursor.depth attachment.leaf change.content).isSome := by
      rw [Cursor.setAt?_isSome hleaf, Cursor.place_depth]
      exact howned
    obtain ⟨record, hrecord⟩ := Option.isSome_iff_exists.mp hset
    have hact : act surroundings (.attach (attachmentAt blueprint join attachment)) cursor
        state = _ := attach_eq hchange hrecord
    have hwritten := Cursor.setAt?_written hrecord
    rw [Cursor.place_depth] at hwritten
    rw [hact]
    have hplace : blueprint.AttachedAt join (cursor.below attachment.leaf) :=
      ⟨attachment, h.leads, hlevel, cursor, hfits, rfl⟩
    -- the aggregates over the attachment are refreshed outside of it
    refine Eq.trans ((refreshAll_sameOutside surroundings _ cursor _ { state with record } _ ?_).2
      ?_) hwritten.locate?_self
    · rintro location ⟨inlined, hmem, rfl⟩
      exact (valueAt_of_inlined hmem hfits).2.not_above hlevels hplace
    · rintro location ⟨inlined, hmem, rfl⟩ hstart
      have hne := (valueAt_of_inlined hmem hfits).2.not_above hlevels hplace
      have hown : FromJoin blueprint store
          ⟨.attach (attachmentAt blueprint join attachment), cursor⟩ :=
        ⟨join, h.joined, _, .attachment h.attaches h.leads hlevel, hfits⟩
      have hself := (h.eq_of_touches hlevels hlevel hfits hown
        (.inr ⟨inlined, hmem, rfl⟩) (.inr hstart)).2
      exact hne (hself ▸ List.prefix_refl _)

end Listed

/-- A to-many attachment whose records declare no shape; no other attachment of its store lies at or
around it. -/
structure Bare (blueprint : Blueprint) (store : String) (join : Join)
    (attachment : ResolvedPath) : Prop where
  joined : join ∈ blueprint.metadata.joinsOf store
  many : join.cardinality = .many
  leads : blueprint.resolveLenient join.path = .ok attachment
  /-- the records are those of another store -/
  foreign : attachment.isVirtual = true
  alone : ((blueprint.metadata.joinsOf store).filter fun other =>
    other.Attaches ∧ segments other.path <+: segments join.path).Sublist [join]

namespace Bare

theorem attaches (h : Bare blueprint store join attachment) : join.Attaches := by
  rw [Join.Attaches, h.many]
  decide

theorem spares (h : Bare blueprint store join attachment) :
    Spares blueprint.metadata store join := fun _ hother hattaches hstart =>
  List.mem_singleton.mp
    (h.alone.subset (List.mem_filter.mpr ⟨hother, decide_eq_true ⟨hattaches, hstart⟩⟩))

theorem listed (h : Bare blueprint store join attachment) :
    Listed blueprint store join attachment :=
  ⟨h.joined, h.many, h.leads, h.foreign, h.spares⟩

variable (hlevels : blueprint.LevelsDeclared) (h : Bare blueprint store join attachment)

include hlevels h

/-- The action of the attachment is placed once for an instance. -/
theorem countP_placed_le (hcompile : JoinProcedures.compile blueprint store = .ok procedures)
    (hfits : cursor.Fits attachment.loops) (delta : Delta) :
    (procedures.program delta).placed.countP (fun entry =>
      decide (cursor.Under {} entry.1) && entry.2.attachesTo attachment.leaf) ≤ 1 :=
  Nat.le_trans (countP_attachesTo_le hlevels hcompile h.leads hfits delta) (by
    rw [List.countP_eq_length_filter]
    exact h.alone.length_le)

/-- A call makes of an instance what the change makes of it. -/
theorem run_attaches (hcompile : JoinProcedures.compile blueprint store = .ok procedures)
    (surroundings : Surroundings) (hfits : cursor.Fits attachment.loops) {record : Json}
    (howned : Owned (cursor.below attachment.leaf) record) (states : AggregateStates) :
    Owned (cursor.below attachment.leaf) (procedures.run surroundings record states).record ∧
    (procedures.run surroundings record states).record.locate? (cursor.below attachment.leaf) =
      (changeAt? surroundings (attachmentAt blueprint join attachment) cursor record).elim
        (record.locate? (cursor.below attachment.leaf)) (some ·.content) := by
  obtain ⟨other, hleads', hlevel, -⟩ :=
    JoinProcedures.placed_of_attaches hcompile surroundings.delta h.joined h.attaches
  obtain rfl : attachment = other := Except.ok.inj (h.leads.symm.trans hleads')
  obtain ⟨events, hrun, htraced, hfrom, howns, hevent⟩ := exists_events_at hlevels hcompile h.spares
    h.joined h.attaches h.leads hfits howned states
  rw [hrun]
  refine ⟨howns events (List.prefix_refl _), ?_⟩
  have hsort : (Action.attach (attachmentAt blueprint join attachment)).attachesTo
      attachment.leaf = true := decide_eq_true rfl
  obtain ⟨front, back, hsplit, hothers⟩ := htraced.exists_split _ hsort hevent
    (h.countP_placed_le hlevels hcompile hfits surroundings.delta)
  have hkeeps : ∀ event ∈ front ++ back, ∀ state : State,
      (act surroundings event.action event.cursor state).record.locate?
          (cursor.below attachment.leaf) =
        state.record.locate? (cursor.below attachment.leaf) := by
    intro event hmem state
    obtain ⟨hperformed, hother⟩ := hothers event hmem
    refine h.listed.act_other hlevels hlevel hfits (hfrom event hperformed) ?_ state
    rintro rfl
    simpa [attachmentAt, Action.attachesTo] using hother rfl
  obtain ⟨hfront, hafter⟩ := Machine.perform_of_others (machine surroundings)
    (fun state => state.record.locate? (cursor.below attachment.leaf)) hkeeps { record, states }
  -- what came before left the instance alone, so the change is made from what was there at first
  have hchange : changeAt? surroundings (attachmentAt blueprint join attachment) cursor
      ((machine surroundings).perform front { record, states }).record =
        changeAt? surroundings (attachmentAt blueprint join attachment) cursor record :=
    congrArg (fun shown : Option Json => Attached.change? _ _ (shown.getD .null) _) hfront
  have hown := h.listed.act_self hlevels hlevel hfits surroundings
    (howns front (hsplit ▸ List.prefix_append ..))
  rw [hchange, hfront] at hown
  rw [hsplit]
  exact hafter.trans hown

end Bare

/-! ## External aggregates -/

/-- An external aggregate of a store; no attachment of the store lies around its target. -/
structure Supplied (blueprint : Blueprint) (store : String) (aggregate : ExternalAggregate)
    (target : ResolvedPath) : Prop where
  registered : aggregate ∈ (Fields.get? blueprint.metadata.externals store).getD []
  leads : blueprint.resolveStrict aggregate.target = .ok target
  spared : ∀ other ∈ blueprint.metadata.joinsOf store, other.Attaches →
    ¬ segments other.path <+: segments aggregate.target

/-- Supplying an aggregate keeps its next state. -/
theorem supply_states {kind : AggregateKind} {feed : Feed} {state : State}
    (hkind : surroundings.kinds.get? feed.aggregate.op = some kind) :
    Fields.get? (supply surroundings feed cursor state).states (cursor.below feed.leaf).pointer =
      some (feed.next surroundings kind
        ((Fields.get? state.states (cursor.below feed.leaf).pointer).getD kind.init)).1 := by
  have hpointer : cursor.pointerAt cursor.depth feed.leaf = (cursor.below feed.leaf).pointer := by
    rw [Cursor.pointerAt_eq, Cursor.place_depth]
  simp only [supply, hkind, ← hpointer, Fields.get?_set_self]

/-- Supplying an aggregate keeps its next state, and shows the value where there is an owner. -/
theorem supply_eq {kind : AggregateKind} {feed : Feed} {state : State}
    (hkind : surroundings.kinds.get? feed.aggregate.op = some kind) (hleaf : feed.leaf ≠ [])
    (howned : Owned (cursor.below feed.leaf) state.record) {next : AggregateState}
    (hnext : next = (feed.next surroundings kind
      ((Fields.get? state.states (cursor.below feed.leaf).pointer).getD kind.init)).1) :
    Fields.get? (supply surroundings feed cursor state).states (cursor.below feed.leaf).pointer =
        some next ∧
      (supply surroundings feed cursor state).record.locate? (cursor.below feed.leaf) =
        some next.value := by
  refine ⟨hnext ▸ supply_states hkind, ?_⟩
  have hset : (cursor.setAt? state.record cursor.depth feed.leaf next.value).isSome := by
    rw [Cursor.setAt?_isSome hleaf, Cursor.place_depth]
    exact howned
  obtain ⟨record, hrecord⟩ := Option.isSome_iff_exists.mp hset
  have hwritten := (Cursor.setAt?_written hrecord).locate?_self
  rw [Cursor.place_depth] at hwritten
  have hpointer : cursor.pointerAt cursor.depth feed.leaf = (cursor.below feed.leaf).pointer := by
    rw [Cursor.pointerAt_eq, Cursor.place_depth]
  rw [← hpointer] at hnext
  simp only [supply, hkind, ← hnext, State.write, hrecord, Option.getD_some]
  exact hwritten

namespace Supplied

variable (hlevels : blueprint.LevelsDeclared) (htidy : blueprint.metadata.Tidy)
  (h : Supplied blueprint store aggregate target) (hfits : cursor.Fits target.loops)

include hlevels htidy h hfits

/-- An event that writes at or around an instance of the target is that of the aggregate. -/
theorem eq_of_touches (hscalar : target.isScalar = true)
    (hevent : FromJoin blueprint store event) {location : Location}
    (htouches : event.action.Touches event.cursor location)
    (hstart : location <+: cursor.below target.leaf) :
    event = ⟨.feed ⟨target.leaf, aggregate⟩, cursor⟩ ∧ location = cursor.below target.leaf := by
  obtain ⟨other, hother, loops, hstands, hfits'⟩ := hevent
  have hplace : blueprint.ValueAt aggregate.target (cursor.below target.leaf) :=
    ⟨target, h.leads, hscalar, cursor, hfits, rfl⟩
  obtain ⟨action, c⟩ := event
  cases hstands with
  | attachment hattaches hleads hlevel =>
    exfalso
    rcases htouches with rfl | ⟨inlined, hmem, rfl⟩
    · have hattached : blueprint.AttachedAt other (c.below _) :=
        ⟨_, hleads, hlevel, c, hfits', rfl⟩
      have hnames := Location.names_above hstart
      rw [hplace.names hlevels] at hnames
      exact h.spared other hother hattaches (hattached.names hlevels ▸ hnames)
    · -- a local aggregate has another target
      have hvalue := (valueAt_of_inlined hmem hfits').2
      obtain ⟨aggregate', haggregate, hinlined⟩ := List.mem_filterMap.mp hmem
      obtain ⟨rest, beyond, -, -, -, -, rfl⟩ := inlined?_eq_some hinlined
      have htarget := (hvalue.eq_of_above hlevels hplace hstart).1
      exact htidy.not_external haggregate h.registered htarget.symm
  | feed _ hregistered _ hleads hscalar' =>
    obtain rfl : location = _ := htouches
    have hvalue : blueprint.ValueAt _ (c.below _) := ⟨_, hleads, hscalar', c, hfits', rfl⟩
    obtain ⟨htarget, heq⟩ := hvalue.eq_of_above hlevels hplace hstart
    obtain rfl := htidy.eq_of_target hregistered h.registered htarget
    obtain rfl := Except.ok.inj (h.leads.symm.trans hleads)
    obtain rfl := Cursor.eq_of_above hfits' hfits hstart
    exact ⟨rfl, rfl⟩

/-- The events of other actions and at other elements leave the target and its state as they are. -/
theorem act_other (hscalar : target.isScalar = true) (hevent : FromJoin blueprint store event)
    (hne : event ≠ ⟨.feed ⟨target.leaf, aggregate⟩, cursor⟩) (state : State) :
    Fields.get? (act surroundings event.action event.cursor state).states
        (cursor.below target.leaf).pointer =
      Fields.get? state.states (cursor.below target.leaf).pointer ∧
    (act surroundings event.action event.cursor state).record.locate? (cursor.below target.leaf) =
      state.record.locate? (cursor.below target.leaf) := by
  have hplace : blueprint.ValueAt aggregate.target (cursor.below target.leaf) :=
    ⟨target, h.leads, hscalar, cursor, hfits, rfl⟩
  have hnot : ∀ location, event.action.Touches event.cursor location →
      ¬ location <+: cursor.below target.leaf := fun location htouches hstart =>
    hne (h.eq_of_touches hlevels htidy hfits hscalar hevent htouches hstart).1
  obtain ⟨other, hother, loops, hstands, hfits'⟩ := id hevent
  refine ⟨act_states _ _ _ fun location hpersists hpointer => ?_,
    (act_sameOutside event.action event.cursor state _ hnot).2 fun location htouches hstart => ?_⟩
  · obtain ⟨path, hvalue⟩ := valueAt_of_persists hstands hfits' hpersists
    have heq := hplace.eq_of_pointer hlevels hvalue hpointer
    exact hnot location hpersists.touches (heq ▸ List.prefix_refl _)
  · rcases touches_cases hstands hfits' htouches with ⟨-, hattached⟩ | ⟨path, -, hvalue⟩
    · exact hplace.not_above hlevels hattached hstart
    · have heq := (hplace.eq_of_above hlevels hvalue hstart).2
      exact hnot location htouches (heq ▸ List.prefix_refl _)

omit hlevels hfits in
/-- The action of the aggregate is placed once for an instance of its target. -/
theorem countP_placed_le (hcompile : JoinProcedures.compile blueprint store = .ok procedures)
    (delta : Delta) :
    (procedures.program delta).placed.countP (fun entry =>
      decide (cursor.Under {} entry.1) && entry.2.feeds aggregate.target) ≤ 1 := by
  have hsort : ∀ other loops action, Stands blueprint store other loops action →
      (decide (cursor.Under {} loops) && action.feeds aggregate.target) = true →
        decide (other.Feeds aggregate.target) = true := by
    intro other loops action hstands hsort
    rw [Bool.and_eq_true] at hsort
    cases hstands with
    | attachment => cases hsort.2
    | feed hfeeds _ htarget =>
      exact decide_eq_true ⟨hfeeds, htarget.symm.trans (of_decide_eq_true hsort.2)⟩
  have hle := JoinProcedures.countP_placed_le hcompile delta
    (fun entry => decide (cursor.Under {} entry.1) && entry.2.feeds aggregate.target)
    (fun other => decide (other.Feeds aggregate.target)) hsort
  exact Nat.le_trans hle (Nat.le_of_eq (htidy.fed_once h.registered))

/-- An event leaves the elements of the target where they are. -/
theorem isSome_locate?_act (hscalar : target.isScalar = true)
    (hevent : FromJoin blueprint store event) (state : State) :
    ((act surroundings event.action event.cursor state).record.locate? cursor.element).isSome =
      (state.record.locate? cursor.element).isSome := by
  have hleaf := (Blueprint.leads_of_strict hlevels h.leads).1.leaf_ne_nil
  refine Bool.eq_iff_iff.mpr
    ((act_sameOutside event.action event.cursor state).isSome_locate?_iff ?_)
  intro location htouches hstart
  -- a touched place that holds the element would be the instance itself, which lies below it
  have habove : cursor.element <+: cursor.below target.leaf := List.prefix_append ..
  obtain rfl := (h.eq_of_touches hlevels htidy hfits hscalar hevent htouches
    (hstart.trans habove)).2
  have hlength := hstart.length_le
  rw [Cursor.below, List.length_append, List.length_map] at hlength
  have hpositive := List.length_pos_iff.mpr hleaf
  omega

/-- A call does one thing at an instance of the target whose element is there: it supplies the
aggregate, in a state that shows and keeps for the instance what there was before. -/
theorem run_turn (hcompile : JoinProcedures.compile blueprint store = .ok procedures)
    (surroundings : Surroundings) {record : Json}
    (hpresent : (record.locate? cursor.element).isSome) (states : AggregateStates) :
    ∃ state : State,
      (Owned (cursor.below target.leaf) state.record ↔ Owned (cursor.below target.leaf) record) ∧
      Fields.get? state.states (cursor.below target.leaf).pointer =
        Fields.get? states (cursor.below target.leaf).pointer ∧
      Fields.get? (procedures.run surroundings record states).states
          (cursor.below target.leaf).pointer =
        Fields.get? (supply surroundings ⟨target.leaf, aggregate⟩ cursor state).states
          (cursor.below target.leaf).pointer ∧
      (procedures.run surroundings record states).record.locate? (cursor.below target.leaf) =
        (supply surroundings ⟨target.leaf, aggregate⟩ cursor state).record.locate?
          (cursor.below target.leaf) := by
  have hleaf := (Blueprint.leads_of_strict hlevels h.leads).1.leaf_ne_nil
  obtain ⟨other, hleads', hscalar, hplaced⟩ :=
    JoinProcedures.placed_of_feeds hcompile surroundings.delta htidy h.registered
  obtain rfl : target = other := Except.ok.inj (h.leads.symm.trans hleads')
  obtain ⟨events, hrun, htraced, hfrom⟩ :=
    JoinProcedures.exists_events hcompile surroundings record states
  -- the element stays there whatever comes before, so that the action reaches it
  have hevent := htraced.complete _ _ hplaced cursor (Cursor.fits_iff_under_root.mp hfits)
    fun front hfront => (Machine.perform_congr (machine surroundings)
      (fun state => (state.record.locate? cursor.element).isSome)
      (fun event hevent => h.isSome_locate?_act hlevels htidy hfits hscalar
        (hfrom event (hfront.subset hevent))) _).trans hpresent
  have hsort : (Action.feed ⟨target.leaf, aggregate⟩).feeds aggregate.target = true :=
    decide_eq_true rfl
  obtain ⟨front, back, hsplit, hothers⟩ := htraced.exists_split _ hsort hevent
    (h.countP_placed_le htidy hcompile surroundings.delta)
  have hothersFrom : ∀ event ∈ front ++ back, FromJoin blueprint store event :=
    fun event hmem => hfrom event (hothers event hmem).1
  let observe (state : State) : Option AggregateState × Option Json :=
    (Fields.get? state.states (cursor.below target.leaf).pointer,
      state.record.locate? (cursor.below target.leaf))
  have hkeeps : ∀ event ∈ front ++ back, ∀ state : State,
      observe (act surroundings event.action event.cursor state) = observe state := by
    intro event hmem state
    refine Prod.ext_iff.mpr (h.act_other hlevels htidy hfits hscalar (hothersFrom event hmem) ?_
      state)
    rintro rfl
    exact Bool.noConfusion (hsort.symm.trans ((hothers _ hmem).2 rfl))
  obtain ⟨hfront, hafter⟩ := Machine.perform_of_others (machine surroundings) observe hkeeps
    { record, states }
  rw [hrun, hsplit]
  refine ⟨(machine surroundings).perform front { record, states }, ?_, congrArg Prod.fst hfront,
    congrArg Prod.fst hafter, congrArg Prod.snd hafter⟩
  exact owned_perform_of_spared (Cursor.below_ne_nil hleaf)
    (fun event hmem location htouches hstart =>
      (h.eq_of_touches hlevels htidy hfits hscalar
        (hothersFrom event (List.mem_append_left _ hmem)) htouches hstart).2) _

omit hfits in
/-- A call leaves the elements that hold the target. -/
theorem mem_reach_run (hcompile : JoinProcedures.compile blueprint store = .ok procedures)
    (surroundings : Surroundings) (record : Json) (states : AggregateStates) :
    cursor ∈ (procedures.run surroundings record states).record.reach {} target.loops ↔
      cursor ∈ record.reach {} target.loops := by
  obtain ⟨other, hleads', hscalar, -⟩ :=
    JoinProcedures.placed_of_feeds hcompile surroundings.delta htidy h.registered
  obtain rfl : target = other := Except.ok.inj (h.leads.symm.trans hleads')
  obtain ⟨events, hrun, -, hfrom⟩ :=
    JoinProcedures.exists_events hcompile surroundings record states
  rw [hrun, Json.mem_reach_root, Json.mem_reach_root]
  refine and_congr_right fun hfits => Bool.eq_iff_iff.mp ?_
  exact Machine.perform_congr (machine surroundings)
    (fun state => (state.record.locate? cursor.element).isSome)
    (fun event hevent => h.isSome_locate?_act hlevels htidy hfits hscalar
      (hfrom event hevent)) _

/-- A call leaves an instance of the target its owner, or leaves it without. -/
theorem owned_run_iff (hcompile : JoinProcedures.compile blueprint store = .ok procedures)
    (surroundings : Surroundings) (record : Json) (states : AggregateStates) :
    Owned (cursor.below target.leaf) (procedures.run surroundings record states).record ↔
      Owned (cursor.below target.leaf) record := by
  have hleaf := (Blueprint.leads_of_strict hlevels h.leads).1.leaf_ne_nil
  obtain ⟨other, hleads', hscalar, -⟩ :=
    JoinProcedures.placed_of_feeds hcompile surroundings.delta htidy h.registered
  obtain rfl : target = other := Except.ok.inj (h.leads.symm.trans hleads')
  obtain ⟨events, hrun, -, hfrom⟩ :=
    JoinProcedures.exists_events hcompile surroundings record states
  rw [hrun]
  exact owned_perform_of_spared (Cursor.below_ne_nil hleaf)
    (fun event hevent location htouches hstart =>
      (h.eq_of_touches hlevels htidy hfits hscalar
        (hfrom event hevent) htouches hstart).2) _

/-- A call takes the state of an instance of the target to the next one. -/
theorem run_persists (hcompile : JoinProcedures.compile blueprint store = .ok procedures)
    {kind : AggregateKind} (hkind : surroundings.kinds.get? aggregate.op = some kind)
    {record : Json} (hpresent : (record.locate? cursor.element).isSome)
    (states : AggregateStates) :
    Fields.get? (procedures.run surroundings record states).states
        (cursor.below target.leaf).pointer =
      some (Feed.next ⟨target.leaf, aggregate⟩ surroundings kind
        ((Fields.get? states (cursor.below target.leaf).pointer).getD kind.init)).1 := by
  obtain ⟨state, -, hstates, hpersisted, -⟩ :=
    h.run_turn hlevels htidy hfits hcompile surroundings hpresent states
  rw [hpersisted, ← hstates]
  exact supply_states hkind

/-- A call takes the state of an instance of the target to the next one and shows its value. -/
theorem run_supplies (hcompile : JoinProcedures.compile blueprint store = .ok procedures)
    {kind : AggregateKind} (hkind : surroundings.kinds.get? aggregate.op = some kind)
    {record : Json} (howned : Owned (cursor.below target.leaf) record) (states : AggregateStates)
    {next : AggregateState}
    (hnext : next = (Feed.next ⟨target.leaf, aggregate⟩ surroundings kind
      ((Fields.get? states (cursor.below target.leaf).pointer).getD kind.init)).1) :
    Owned (cursor.below target.leaf) (procedures.run surroundings record states).record ∧
    Fields.get? (procedures.run surroundings record states).states
        (cursor.below target.leaf).pointer = some next ∧
    (procedures.run surroundings record states).record.locate? (cursor.below target.leaf) =
      some next.value := by
  have hleaf := (Blueprint.leads_of_strict hlevels h.leads).1.leaf_ne_nil
  have hpresent : (record.locate? cursor.element).isSome :=
    @has_of_owned surroundings cursor target.leaf { record, states } hleaf howned
  obtain ⟨state, howner, hstates, hpersisted, hshown⟩ :=
    h.run_turn hlevels htidy hfits hcompile surroundings hpresent states
  rw [← hstates] at hnext
  obtain ⟨hstate, hvalue⟩ := supply_eq hkind hleaf (howner.mpr howned) hnext
  exact ⟨(h.owned_run_iff hlevels htidy hfits hcompile surroundings record states).mpr howned,
    hpersisted.trans hstate, hshown.trans hvalue⟩

end Supplied

end Joining

end NestedRecord
