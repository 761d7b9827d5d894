import NestedRecord.Proofs.Key.Codec
import NestedRecord.Proofs.Key.Place
import NestedRecord.Proofs.Number.Numeral
import NestedRecord.Proofs.Store.Compiled

/-!
# Composite keys read and written

The key of a record is taken apart and written into another record.

- `PrimaryKey.Proper`: the key attributes of a store are values that lie apart;
  `IsCompiled.proper` says so of every compiled store.
- `PrimaryKey.exists_write?`: with a separator that separates, each part of a key comes back.
- `partValue_of_holds`: a text, a truth value and an integer come back as they were.
- `Store.key_codec` is the result for all accepted separators, `Store.key_restored` the one
  for the default separator.

Three things have to be true for a value to come back: the text of the key is cut into the parts
again, each part stands for the value that it was made of, and the value is not overwritten by
another part. The first depends on the separator alone, the second on the type of the attribute, and
the third on the attributes lying apart, which is so in every store.
-/

namespace NestedRecord

namespace KeyAttribute

/-- The part of a key that a record contributes to it; empty if there is none. -/
def part (record : Json) (attr : KeyAttribute) : String := (attr.text? record).getD ""

end KeyAttribute

namespace PrimaryKey

/-- Key attributes that are values apart from one another. -/
structure Proper (key : PrimaryKey) : Prop where
  ne_nil : ∀ attr ∈ key.attributes, attr.path ≠ []
  apart : ∀ attr ∈ key.attributes, ∀ other ∈ key.attributes,
    attr.path <+: other.path → attr = other

variable {key : PrimaryKey} {record target : Json}

/-- A composite key is made of a text for each attribute. -/
theorem read?_composite (h : 2 ≤ key.attributes.length) (record : Json) :
    key.read? record = (key.attributes.mapM (KeyAttribute.text? record)).map fun parts =>
      .string (CompositeKey.encode key.separator parts) := by
  unfold read?
  split
  · next hnil => simp [hnil] at h
  · next hsingle => simp [hsingle] at h
  · rfl

/-- It is written if it has as many parts as there are attributes. -/
theorem write?_composite (h : 2 ≤ key.attributes.length) (record : Json) (text : String) :
    key.write? record (.string text) =
      if (CompositeKey.decode key.separator text).length = key.attributes.length then
        (key.attributes.zip (CompositeKey.decode key.separator text)).foldlM writePart? record
      else none := by
  unfold write?
  split
  · next hnil => simp [hnil] at h
  · next hsingle => simp [hsingle] at h
  · rfl

/-- The parts of a key are those of the attributes, each of which has one. -/
theorem mapM_text? {attributes : List KeyAttribute} {parts : List String}
    (h : attributes.mapM (KeyAttribute.text? record) = some parts) :
    parts = attributes.map (KeyAttribute.part record) ∧
      ∀ attr ∈ attributes, attr.text? record = some (attr.part record) := by
  induction attributes generalizing parts with
  | nil =>
    obtain rfl := Option.some.inj h
    exact ⟨rfl, fun attr hattr => absurd hattr List.not_mem_nil⟩
  | cons attr rest ih =>
    rw [List.mapM_cons] at h
    obtain ⟨text, htext, h⟩ := Option.bind_eq_some_iff.mp h
    obtain ⟨others, hothers, h⟩ := Option.bind_eq_some_iff.mp h
    obtain rfl := Option.some.inj h
    obtain ⟨rfl, hall⟩ := ih hothers
    -- the part of an attribute is the text that it has
    have hpart : attr.part record = text := by rw [KeyAttribute.part, htext, Option.getD_some]
    refine ⟨by rw [List.map_cons, hpart], fun other hother => ?_⟩
    rcases List.mem_cons.mp hother with rfl | hother
    · rw [htext, hpart]
    · exact hall other hother

/-- Where each attribute has a text, there are parts. -/
theorem mapM_text?_of_forall {attributes : List KeyAttribute}
    (h : ∀ attr ∈ attributes, ∃ text, attr.text? record = some text) :
    attributes.mapM (KeyAttribute.text? record) =
      some (attributes.map (KeyAttribute.part record)) := by
  induction attributes with
  | nil => rfl
  | cons attr rest ih =>
    obtain ⟨text, htext⟩ := h attr List.mem_cons_self
    have hpart : attr.part record = text := by rw [KeyAttribute.part, htext, Option.getD_some]
    rw [List.mapM_cons, htext, ih fun other hother => h other (List.mem_cons_of_mem attr hother),
      List.map_cons, hpart]
    rfl

/-- The parts are written to the attributes in their order. -/
theorem foldlM_zip_parts (attributes : List KeyAttribute) (record target : Json) :
    (attributes.zip (attributes.map (KeyAttribute.part record))).foldlM writePart? target =
      attributes.foldlM (fun target attr =>
        place? (partValue attr.type (attr.part record)) attr.path target) target := by
  induction attributes generalizing target with
  | nil => rfl
  | cons attr rest ih =>
    rw [List.map_cons, List.zip_cons_cons, List.foldlM_cons, List.foldlM_cons]
    exact congrArg _ (funext fun next => ih next)

/-- The key of a record is written into another one part by part. -/
theorem write?_of_read? (hcomposite : 2 ≤ key.attributes.length)
    (hseparates : CompositeKey.Separates key.separator.toList) {value : Json}
    (hread : key.read? record = some value) (target : Json) :
    key.write? target value = key.attributes.foldlM (fun target attr =>
      place? (partValue attr.type (attr.part record)) attr.path target) target ∧
      ∀ attr ∈ key.attributes, attr.text? record = some (attr.part record) := by
  rw [read?_composite hcomposite] at hread
  obtain ⟨parts, hparts, rfl⟩ := Option.map_eq_some_iff.mp hread
  obtain ⟨rfl, htexts⟩ := mapM_text? hparts
  have hne : key.attributes.map (KeyAttribute.part record) ≠ [] := by
    rw [Ne, List.map_eq_nil_iff]
    exact List.ne_nil_of_length_pos (by omega)
  refine ⟨?_, htexts⟩
  rw [write?_composite hcomposite, CompositeKey.decode_encode hseparates hne, List.length_map,
    if_pos rfl, foldlM_zip_parts]

/-- The key of a record, written into another one: every attribute holds its part, and whatever
is apart from the key attributes is as before. -/
theorem exists_write? (hproper : key.Proper) (hcomposite : 2 ≤ key.attributes.length)
    (hseparates : CompositeKey.Separates key.separator.toList) {value : Json}
    (hread : key.read? record = some value)
    (hway : ∀ attr ∈ key.attributes, Passable target attr.path) :
    ∃ placed, key.write? target value = some placed ∧
      (∀ attr ∈ key.attributes,
        attr.text? record = some (attr.part record) ∧
          placed.at? attr.path = some (partValue attr.type (attr.part record))) ∧
      ∀ place : Location,
        (∀ attr ∈ key.attributes, Location.Apart (attr.path.map .key) place) →
          placed.locate? place = target.locate? place := by
  obtain ⟨hwrite, htexts⟩ := write?_of_read? hcomposite hseparates hread target
  obtain ⟨placed, hfold, hplaced, hsame⟩ :=
    exists_placeAll (fun attr => partValue attr.type (attr.part record)) hproper.ne_nil
      hproper.apart hway
  exact ⟨placed, hwrite.trans hfold,
    fun attr hattr => ⟨htexts attr hattr, hplaced attr hattr⟩, hsame⟩

/-! ## Values and their parts -/

/-- The types whose values a key tells apart. -/
def isTold : ScalarType → Bool
  | .string | .email | .boolean | .int => true
  | .number | .date => false

/-- The attribute holds a value of its type: a text, a truth value, or an integer that is whole
as a double too. -/
def Holds (record : Json) (attr : KeyAttribute) (value : Json) : Prop :=
  record.at? attr.path = some value ∧ ∃ type, attr.type = some type ∧ isTold type = true ∧
    type.accepts value = true ∧
      ∀ n, value = .number (.whole n) → n.val.natAbs < 9000000000000000

theorem partValue_of_textual {type : Option ScalarType} {text : String}
    (h : type ≠ some .int ∧ type ≠ some .number ∧ type ≠ some .boolean) :
    partValue type text = .string text := by
  unfold partValue
  split <;> first | rfl | exact absurd rfl h.1 | exact absurd rfl h.2.1 | exact absurd rfl h.2.2

/-- The digits of an integer are read as the integer. -/
theorem partValue_intText {n : Whole} (h : n.val.natAbs < 9000000000000000) :
    partValue (some .int) (Numeral.intText n.val) = .number (.whole n) := by
  have hparse : Numeral.parse? (Numeral.intText n.val) = some (.ofInt n.val) :=
    Numeral.parse?_intText (Nat.le_trans (Nat.le_of_lt h) (by decide))
  simp only [partValue, hparse, Option.map_some, Option.getD_some, Json.ofDouble_ofInt h]

/-- The value of an attribute is the value of its part. -/
theorem partValue_of_holds {attr : KeyAttribute} {value : Json} (h : Holds record attr value) :
    attr.text? record = some (attr.part record) ∧
      partValue attr.type (attr.part record) = value := by
  obtain ⟨hread, type, htype, htold, haccepts, hsmall⟩ := h
  have htext : attr.text? record = KeyAttribute.partText? value := by
    rw [KeyAttribute.text?, hread, Option.bind_some]
  rw [KeyAttribute.part, htext, htype]
  cases type <;> cases value <;> simp only [isTold, ScalarType.accepts, Bool.false_eq_true] at *
  case string.string s => exact ⟨rfl, rfl⟩
  case email.string s => exact ⟨rfl, rfl⟩
  case boolean.bool b => cases b <;> exact ⟨rfl, rfl⟩
  case int.number n =>
    cases n with
    | real x => cases haccepts
    | whole n => exact ⟨rfl, partValue_intText (hsmall n rfl)⟩

/-- A record whose key attributes hold values has the key of their parts. -/
theorem read?_of_holds (hcomposite : 2 ≤ key.attributes.length)
    (h : ∀ attr ∈ key.attributes, ∃ value, Holds record attr value) :
    key.read? record = some (.string (CompositeKey.encode key.separator
      (key.attributes.map (KeyAttribute.part record)))) := by
  have htexts : ∀ attr ∈ key.attributes, ∃ text, attr.text? record = some text := by
    intro attr hattr
    obtain ⟨value, hvalue⟩ := h attr hattr
    exact ⟨_, (partValue_of_holds hvalue).1⟩
  rw [read?_composite hcomposite, mapM_text?_of_forall htexts, Option.map_some]

/-- A key that is written brings the values back that it was made of. -/
theorem exists_write?_of_holds (hproper : key.Proper) (hcomposite : 2 ≤ key.attributes.length)
    (hseparates : CompositeKey.Separates key.separator.toList)
    (h : ∀ attr ∈ key.attributes, ∃ value, Holds record attr value) {value : Json}
    (hread : key.read? record = some value)
    (hway : ∀ attr ∈ key.attributes, Passable target attr.path) :
    ∃ placed, key.write? target value = some placed ∧
      (∀ attr ∈ key.attributes, placed.at? attr.path = record.at? attr.path) ∧
      ∀ place : Location,
        (∀ attr ∈ key.attributes, Location.Apart (attr.path.map .key) place) →
          placed.locate? place = target.locate? place := by
  obtain ⟨placed, hwrite, hparts, hsame⟩ :=
    exists_write? hproper hcomposite hseparates hread hway
  refine ⟨placed, hwrite, fun attr hattr => ?_, hsame⟩
  obtain ⟨value, hvalue⟩ := h attr hattr
  rw [(hparts attr hattr).2, (partValue_of_holds hvalue).2, hvalue.1]

/-! ## Compiled keys -/

variable {blueprint : Blueprint}

/-- A key attribute is a declared value outside of lists. -/
theorem resolve_eq_ok {path : String} {attr : KeyAttribute}
    (h : resolve blueprint path = .ok attr) :
    ∃ resolved, blueprint.resolveStrict path = .ok resolved ∧ resolved.isScalar = true ∧
      resolved.loops = [] ∧ attr = ⟨resolved.leaf, resolved.scalarType?⟩ := by
  unfold resolve at h
  obtain ⟨resolved, hdemand, h⟩ := Except.bind_eq_ok.mp h
  refine ⟨resolved, Blueprint.resolve_of_demand hdemand, ?_⟩
  cases hrefused : !resolved.isScalar || decide (0 < resolved.depth) with
  | true =>
    simp only [hrefused] at h
    cases h
  | false =>
    simp only [hrefused] at h
    obtain ⟨hscalar, hdepth⟩ := Bool.or_eq_false_iff.mp hrefused
    refine ⟨by simpa using hscalar, ?_, (Except.ok.inj h).symm⟩
    exact List.eq_nil_of_length_eq_zero (Nat.eq_zero_of_not_pos (of_decide_eq_false hdepth))

/-- A compiled key has an attribute for each declared path. -/
theorem compile_eq_ok (h : compile blueprint = .ok key) :
    List.Forall₂ (fun path attr => resolve blueprint path = .ok attr)
        blueprint.metadata.primaryKey key.attributes ∧
      key.separator = blueprint.config.keySeparator := by
  unfold compile at h
  obtain ⟨attributes, hattributes, h⟩ := Except.bind_eq_ok.mp h
  obtain rfl := Except.ok.inj h
  exact ⟨Except.forall₂_of_mapM hattributes, rfl⟩

/-- The key attributes of a store lie apart: no path goes on below a declared value. -/
theorem proper_of_compile (hlevels : blueprint.LevelsDeclared) (h : compile blueprint = .ok key) :
    key.Proper := by
  have hleads : ∀ attr ∈ key.attributes, ∃ resolved : ResolvedPath, blueprint.Leads resolved ∧
      resolved.IsValue ∧ resolved.names = resolved.leaf ∧
        attr = ⟨resolved.leaf, resolved.scalarType?⟩ := by
    intro attr hattr
    obtain ⟨path, -, hresolve⟩ := exists_of_forall₂_right (compile_eq_ok h).1 hattr
    obtain ⟨resolved, hstrict, hscalar, hloops, hvalue⟩ := resolve_eq_ok hresolve
    obtain ⟨hleads, -, -, hvirtual⟩ := Blueprint.leads_of_strict hlevels hstrict
    refine ⟨resolved, hleads, ⟨hscalar, hvirtual⟩, ?_, hvalue⟩
    rw [ResolvedPath.names, hloops]
    rfl
  constructor
  · intro attr hattr
    obtain ⟨resolved, hresolved, -, -, rfl⟩ := hleads attr hattr
    exact hresolved.leaf_ne_nil
  · intro attr hattr other hother hstart
    obtain ⟨resolved, hresolved, hvalue, hnames, rfl⟩ := hleads attr hattr
    obtain ⟨resolved', hresolved', -, hnames', rfl⟩ := hleads other hother
    -- a value has nothing below it, so one way is the beginning of the other only if they are the
    -- same
    rw [← hnames, ← hnames'] at hstart
    obtain ⟨-, hleaf, htarget, -⟩ :=
      hresolved.eq_of_names hresolved' (hresolved.names_eq_of_value hvalue hresolved' hstart)
    rw [ResolvedPath.scalarType?, ResolvedPath.scalarType?, hleaf, htarget]

end PrimaryKey

namespace Store.IsCompiled

variable {store : Store}

/-- A compiled store has a key whose attributes lie apart. -/
theorem proper (h : store.IsCompiled) : store.key.Proper :=
  PrimaryKey.proper_of_compile h.levelsDeclared h.key

theorem separator (h : store.IsCompiled) : store.key.separator = store.config.keySeparator :=
  (PrimaryKey.compile_eq_ok h.key).2

end Store.IsCompiled

/-! ## Units of a shop -/

namespace Store

/-- Units that a shop and a serial number identify together. -/
def units : Store :=
  compiled "units"
    (.mk [("shop", .tuple [.word "string", .word "<<shopId>>"]),
      ("meta", .tuple [.word "object", .nested (.mk [
        ("serial", .tuple [.word "int", .word "<<serial>>"])])])])
    (by decide +kernel)

theorem key_units :
    units.key = ⟨[⟨["shop"], some .string⟩, ⟨["meta", "serial"], some .int⟩], "-"⟩ := by
  decide +kernel

/-- A unit of a shop whose name holds the separator. -/
def unit : Json :=
  .object [("shop", .string "south-east"), ("meta", .object [("serial", .ofInt (-12))])]

theorem key?_unit : units.key? unit = some (.string "south\\-east-\\-12") := by
  rw [key?, key_units]
  rfl

end Store

/-! ## All separators -/

open CompositeKey (encode decode Separates)

/-- With which separators the parts of a composite key come back: exactly with those that
separate. Then a key written into an empty record brings back every text that it was made of. -/
theorem Store.key_codec {config : Config} (haccepted : config.violation? = none) :
    ((∀ parts : List String, 2 ≤ parts.length →
        decode config.keySeparator (encode config.keySeparator parts) = parts) ↔
      Separates config.keySeparator.toList) ∧
    (Separates config.keySeparator.toList →
      ∀ name descriptor store, (Store.compile config name descriptor).1 = .ok store →
        2 ≤ store.key.attributes.length → ∀ record key, store.key? record = some key →
          ∃ restored, store.withKey? (.object []) key = some restored ∧
            ∀ attr ∈ store.key.attributes,
              attr.type ≠ some .int ∧ attr.type ≠ some .number ∧ attr.type ≠ some .boolean →
                ∀ text, record.at? attr.path = some (.string text) →
                  restored.at? attr.path = some (.string text)) := by
  have hne : config.keySeparator ≠ "" := by
    intro hempty
    unfold Config.violation? at haccepted
    rw [hempty] at haccepted
    split at haccepted <;> cases haccepted
  refine ⟨CompositeKey.decode_encode_iff hne, fun hseparates name descriptor store hcompile
    hcomposite record key hread => ?_⟩
  have hstore : store.IsCompiled := ⟨config, name, descriptor, hcompile⟩
  have hconfig : store.config = config := (Store.flatten_of_compile hcompile).2.1
  obtain ⟨restored, hwrite, hparts, -⟩ := PrimaryKey.exists_write? hstore.proper hcomposite
    (by rwa [hstore.separator, hconfig]) hread
    fun attr _ => PrimaryKey.passable_empty attr.path
  refine ⟨restored, hwrite, fun attr hattr htype text htext => ?_⟩
  obtain ⟨hpart, hrestored⟩ := hparts attr hattr
  have htext' : attr.text? record = some text := by
    rw [KeyAttribute.text?, htext]
    rfl
  rw [hrestored, PrimaryKey.partValue_of_textual htype,
    Option.some.inj (hpart.symm.trans htext')]

/-- The text of a unit comes back. -/
theorem Store.key_codec_units :
    ({} : Config).violation? = none ∧ Separates ({} : Config).keySeparator.toList ∧
      2 ≤ units.key.attributes.length ∧
      ∃ restored, units.withKey? (.object []) (.string "south\\-east-\\-12") = some restored ∧
        restored.at? ["shop"] = some (.string "south-east") := by
  have haccepted : ({} : Config).violation? = none := rfl
  have hseparates : Separates ({} : Config).keySeparator.toList :=
    CompositeKey.separates_singleton (by decide)
  have hcomposite : 2 ≤ units.key.attributes.length := by
    rw [key_units]
    exact Nat.le_refl 2
  obtain ⟨restored, hwrite, htexts⟩ := (Store.key_codec haccepted).2 hseparates "units" _ units
    (compile_compiled ..) hcomposite unit _ key?_unit
  have hshop : (⟨["shop"], some .string⟩ : KeyAttribute) ∈ units.key.attributes := by
    rw [key_units]
    exact List.mem_cons_self
  exact ⟨haccepted, hseparates, hcomposite, restored, hwrite,
    htexts _ hshop (by decide) "south-east" rfl⟩

/-- A separator of two equal characters is accepted, but a part that ends with the character
runs into it. -/
theorem Store.not_key_codec : ¬ ∀ config : Config, config.violation? = none →
    ∀ parts : List String, 2 ≤ parts.length →
      decode config.keySeparator (encode config.keySeparator parts) = parts := by
  intro h
  have hparts := h { keySeparator := "--" } rfl ["-", "x"] (Nat.le_refl 2)
  exact absurd hparts (by decide)

/-! ## The default separator -/

/-- The key of a record whose key attributes hold texts, truth values and integers. It brings
all of them back, changes nothing else, and no record with other values has it. -/
theorem Store.key_restored {store : Store} (hstore : store.IsCompiled)
    (hdefault : store.config.keySeparator = "-") (hcomposite : 2 ≤ store.key.attributes.length)
    {record : Json}
    (hholds : ∀ attr ∈ store.key.attributes, ∃ value, PrimaryKey.Holds record attr value) :
    ∃ key, store.key? record = some key ∧
      (∀ target, (∀ attr ∈ store.key.attributes, PrimaryKey.Passable target attr.path) →
        ∃ placed, store.withKey? target key = some placed ∧
          (∀ attr ∈ store.key.attributes, placed.at? attr.path = record.at? attr.path) ∧
          (∀ place : Location,
            (∀ attr ∈ store.key.attributes, Location.Apart (attr.path.map .key) place) →
              placed.locate? place = target.locate? place) ∧
          store.key? placed = some key) ∧
      ∀ other, (∀ attr ∈ store.key.attributes, ∃ value, PrimaryKey.Holds other attr value) →
        store.key? other = some key →
          ∀ attr ∈ store.key.attributes, other.at? attr.path = record.at? attr.path := by
  have hseparates : Separates store.key.separator.toList := by
    rw [hstore.separator, hdefault]
    exact CompositeKey.separates_singleton (by decide)
  have hread := PrimaryKey.read?_of_holds hcomposite hholds
  refine ⟨_, hread, fun target hway => ?_, fun other hother hsame attr hattr => ?_⟩
  · obtain ⟨placed, hwrite, hvalues, hapart⟩ := PrimaryKey.exists_write?_of_holds hstore.proper
      hcomposite hseparates hholds hread hway
    refine ⟨placed, hwrite, hvalues, hapart, ?_⟩
    have hplaced : ∀ attr ∈ store.key.attributes,
        ∃ value, PrimaryKey.Holds placed attr value := by
      intro attr hattr
      obtain ⟨value, hvalue⟩ := hholds attr hattr
      exact ⟨value, by rw [hvalues attr hattr, hvalue.1], hvalue.2⟩
    -- the written record shows the same texts, so that they are joined to the same key
    have hparts : store.key.attributes.map (KeyAttribute.part placed) =
        store.key.attributes.map (KeyAttribute.part record) := by
      refine List.map_congr_left fun attr hattr => ?_
      rw [KeyAttribute.part, KeyAttribute.part, KeyAttribute.text?, KeyAttribute.text?,
        hvalues attr hattr]
    rw [Store.key?, PrimaryKey.read?_of_holds hcomposite hplaced, hparts]
  · -- both records bring the key into an empty one
    have hempty : ∀ attr ∈ store.key.attributes, PrimaryKey.Passable (.object []) attr.path :=
      fun attr _ => PrimaryKey.passable_empty attr.path
    obtain ⟨placed, hwrite, hvalues, -⟩ := PrimaryKey.exists_write?_of_holds hstore.proper
      hcomposite hseparates hholds hread hempty
    obtain ⟨placed', hwrite', hvalues', -⟩ := PrimaryKey.exists_write?_of_holds hstore.proper
      hcomposite hseparates hother hsame hempty
    obtain rfl := Option.some.inj (hwrite.symm.trans hwrite')
    rw [← hvalues attr hattr, hvalues' attr hattr]

/-- A record without a unit, and with no object for its serial number. -/
def Store.spare : Json := .object [("label", .string "spare"), ("meta", .null)]

/-- Both attributes can be written into a spare record. -/
theorem Store.passable_spare {path : List String} (h : path = ["shop"] ∨ path = ["meta", "serial"]) :
    PrimaryKey.Passable spare path where
  object := rfl
  way front hfront hne inner hinner := by
    rcases front with _ | ⟨name, _ | ⟨next, front⟩⟩
    · obtain rfl := Option.some.inj hinner
      exact .inl rfl
    · rcases h with rfl | rfl
      · obtain rfl := (List.cons_prefix_cons.mp hfront).1
        exact absurd rfl hne
      · obtain rfl := (List.cons_prefix_cons.mp hfront).1
        obtain rfl := Option.some.inj hinner
        exact .inr rfl
    · have hlength := hfront.length_le
      have hshort : path.length ≤ 2 := by rcases h with rfl | rfl <;> simp
      have hlonger : path.length = (name :: next :: front).length := by
        simp only [List.length_cons] at hlength ⊢
        omega
      exact absurd (hfront.eq_of_length hlonger.symm) hne

/-- The key of a unit, written into a record without one. -/
theorem Store.key_restored_units :
    units.IsCompiled ∧ units.config.keySeparator = "-" ∧ 2 ≤ units.key.attributes.length ∧
      (∀ attr ∈ units.key.attributes, ∃ value, PrimaryKey.Holds unit attr value) ∧
      ∃ placed, units.withKey? spare (.string "south\\-east-\\-12") = some placed ∧
        placed.at? ["meta", "serial"] = some (.ofInt (-12)) ∧
        placed.at? ["label"] = some (.string "spare") := by
  have hstore : units.IsCompiled := isCompiled_compiled ..
  have hdefault : units.config.keySeparator = "-" := by
    rw [← hstore.separator, key_units]
  have hcomposite : 2 ≤ units.key.attributes.length := by
    rw [key_units]
    exact Nat.le_refl 2
  have hholds : ∀ attr ∈ units.key.attributes, ∃ value, PrimaryKey.Holds unit attr value := by
    rw [key_units]
    intro attr hattr
    simp only [List.mem_cons, List.not_mem_nil, or_false] at hattr
    rcases hattr with rfl | rfl
    · exact ⟨.string "south-east", rfl, .string, rfl, rfl, rfl, fun n hn => by cases hn⟩
    · refine ⟨.ofInt (-12), rfl, .int, rfl, rfl, rfl, fun n hn => ?_⟩
      obtain rfl : Whole.clamp (-12) = n := Number.whole.inj (Json.number.inj hn)
      decide
  obtain ⟨key, hkey, hwrite, -⟩ := Store.key_restored hstore hdefault hcomposite hholds
  obtain rfl := Option.some.inj (hkey.symm.trans key?_unit)
  have hway : ∀ attr ∈ units.key.attributes, PrimaryKey.Passable spare attr.path := by
    rw [key_units]
    intro attr hattr
    simp only [List.mem_cons, List.not_mem_nil, or_false] at hattr
    rcases hattr with rfl | rfl
    · exact passable_spare (.inl rfl)
    · exact passable_spare (.inr rfl)
  obtain ⟨placed, hplaced, hvalues, hapart, -⟩ := hwrite spare hway
  refine ⟨hstore, hdefault, hcomposite, hholds, placed, hplaced, ?_, ?_⟩
  · exact hvalues ⟨["meta", "serial"], some .int⟩ (by rw [key_units]; simp)
  · have hlabel := hapart [.key "label"] (by
      rw [key_units]
      unfold Location.Apart
      decide)
    rw [Json.at?_eq_locate?]
    exact hlabel

end NestedRecord
