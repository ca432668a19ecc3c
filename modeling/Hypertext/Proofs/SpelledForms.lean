import Hypertext.Proofs.Registry
import Hypertext.Proofs.Spelling

/-!
# Forms in any spelling

Lower-casing all names of a form lower-cases what is built from it, or the fault that it has
(`Form.items_loweredAll`). So forms that are the same in lower case are built to trees that are, or fail
alike (`build_of_lowered_eq`).
-/

namespace Hypertext

namespace Form

/-- What comes of a form, or its fault, after it was changed by `g` or by `f`. -/
def onOutcome {ε ε' α α' : Type} (f : ε → ε') (g : α → α') : Except ε α → Except ε' α'
  | .error e => .error (f e)
  | .ok a => .ok (g a)

def Fault.lowered : Fault → Fault
  | .symbolValue name value => .symbolValue (Bytes.lower name) (Bytes.lower value)
  | .bareSymbol name => .bareSymbol (Bytes.lower name)
  | other => other

def Malformed.lowered (m : Malformed) : Malformed := ⟨m.fault.lowered, m.path.map Bytes.lower⟩

mutual

/-- Data with all names in lower case. -/
def loweredData : Form Node → Form Node
  | .symbol name => .symbol (Bytes.lower name)
  | .flag on => .flag on
  | .atom n => .atom n.lowered
  | .list fs => .list (loweredDataAll fs)

def loweredDataAll : List (Form Node) → List (Form Node)
  | [] => []
  | f :: fs => f.loweredData :: loweredDataAll fs

end

/-- A text that names an attribute is a name. -/
def loweredKey : Form Node → Form Node
  | .atom (.text name) => .atom (.text (Bytes.lower name))
  | f => f.loweredData

/-- The entries of an attribute list: keys and values by turns. -/
def loweredEntries : List (Form Node) → List (Form Node)
  | [] => []
  | [key] => [key.loweredKey]
  | key :: value :: rest => key.loweredKey :: value.loweredData :: loweredEntries rest

mutual

/-- An item with all names in lower case. -/
def lowered : Form Node → Form Node
  | .list (.symbol name :: rest) => .list (.symbol (Bytes.lower name) :: loweredAll rest)
  | .list (.list (.symbol name :: entries) :: rest) =>
    .list (.list (.symbol (Bytes.lower name) :: loweredEntries entries) :: loweredAll rest)
  | f => f.loweredData

def loweredAll : List (Form Node) → List (Form Node)
  | [] => []
  | f :: fs => f.lowered :: loweredAll fs

end

variable {s : Sentinels}

theorem lookup?_lower (name : Bytes) : s.lookup? (Bytes.lower name) = s.lookup? name := by
  rw [Sentinels.lookup?, Sentinels.lookup?, Sentinels.entry?, Sentinels.entry?, Bytes.lower_lower]

theorem lowered_of_lookup? {name : Bytes} {n : Node} (h : s.lookup? name = some n) : n.lowered = n := by
  obtain ⟨literal, -, rfl⟩ := lookup?_eq_some_iff.1 h
  rw [Node.lowered, Bytes.lower_lower]

mutual

theorem data_loweredData :
    (f : Form Node) → data s f.loweredData = onOutcome Fault.lowered Node.lowered (data s f)
  | .atom n => rfl
  | .flag on => rfl
  | .symbol name => by
    rw [loweredData, data, data, lookup?_lower]
    cases found : s.lookup? name with
    | none => rfl
    | some n => exact congrArg Except.ok (lowered_of_lookup? found).symm
  | .list fs => by
    rw [loweredData, data, data, dataAll_loweredDataAll fs]
    cases dataAll s fs <;> rfl

theorem dataAll_loweredDataAll : (fs : List (Form Node)) →
    dataAll s (loweredDataAll fs) = onOutcome Fault.lowered Node.loweredAll (dataAll s fs)
  | [] => rfl
  | f :: fs => by
    rw [loweredDataAll, dataAll, dataAll, data_loweredData f, dataAll_loweredDataAll fs]
    cases data s f with
    | error _ => rfl
    | ok _ => cases dataAll s fs <;> rfl

end

theorem attributeName_loweredKey (f : Form Node) :
    attributeName f.loweredKey = onOutcome Fault.lowered Bytes.lower (attributeName f) := by
  have named (name : Bytes) : (if Bytes.lower name = [] then Except.error Fault.emptyAttributeName
      else .ok (Bytes.lower name)) = onOutcome Fault.lowered Bytes.lower
        (if name = [] then .error .emptyAttributeName else .ok name) := by
    by_cases empty : name = []
    · subst empty
      rfl
    · rw [if_neg empty, if_neg (mt Bytes.lower_eq_nil_iff.1 empty)]
      rfl
  cases f with
  | symbol name => exact named name
  | flag on => rfl
  | list fs => rfl
  | atom n =>
    cases n with
    | text name => exact named name
    | _ => rfl

theorem attributeValue_loweredData (name : Bytes) (f : Form Node) :
    attributeValue s (Bytes.lower name) f.loweredData =
      onOutcome Fault.lowered Node.loweredValue (attributeValue s name f) := by
  cases f with
  | symbol value => rfl
  | flag on => rfl
  | atom n => exact congrArg Except.ok (Node.loweredValue_ofNode n)
  | list fs =>
    have made := data_loweredData (s := s) (.list fs)
    rw [loweredData] at made
    rw [loweredData, attributeValue, attributeValue, made]
    cases data s (.list fs) with
    | error _ => rfl
    | ok n => exact congrArg Except.ok (Node.loweredValue_ofNode n)

theorem pairs?_loweredEntries (entries : List (Form Node)) : pairs? (loweredEntries entries) =
    (pairs? entries).map (List.map (Prod.map loweredKey loweredData)) := by
  induction entries using pairs?.induct with
  | case1 => rfl
  | case2 entry => rfl
  | case3 key value rest ih =>
    rw [loweredEntries, pairs?, pairs?, ih]
    cases pairs? rest <;> rfl

theorem length_loweredEntries (entries : List (Form Node)) :
    (loweredEntries entries).length = entries.length := by
  induction entries using pairs?.induct with
  | case1 => rfl
  | case2 entry => rfl
  | case3 key value rest ih => rw [loweredEntries, List.length_cons, List.length_cons, ih]; rfl

theorem attributesOfPairs_lowered (pairs : List (Form Node × Form Node)) :
    attributesOfPairs s (pairs.map (Prod.map loweredKey loweredData)) =
      onOutcome Fault.lowered Node.loweredAttributes (attributesOfPairs s pairs) := by
  induction pairs with
  | nil => rfl
  | cons pair rest ih =>
    obtain ⟨key, value⟩ := pair
    rw [List.map_cons, Prod.map, attributesOfPairs, attributesOfPairs, ih, attributeName_loweredKey]
    cases attributeName key with
    | error _ => rfl
    | ok name =>
      simp only [onOutcome, bind, Except.bind, attributeValue_loweredData]
      cases attributeValue s name value with
      | error _ => rfl
      | ok _ => cases attributesOfPairs s rest <;> rfl

theorem attributes_loweredEntries (entries : List (Form Node)) :
    attributes s (loweredEntries entries) =
      onOutcome Fault.lowered Node.loweredAttributes (attributes s entries) := by
  rw [attributes, attributes, pairs?_loweredEntries, length_loweredEntries]
  cases pairs? entries with
  | none => rfl
  | some pairs => exact attributesOfPairs_lowered pairs

theorem isTagForm_loweredData : (f : Form Node) → f.loweredData.isTagForm = f.isTagForm
  | .symbol _ | .flag _ | .atom _ | .list [] | .list (.flag _ :: _) | .list (.atom _ :: _)
  | .list (.symbol _ :: _) | .list (.list [] :: _) | .list (.list (.symbol _ :: _) :: _)
  | .list (.list (.flag _ :: _) :: _) | .list (.list (.atom _ :: _) :: _)
  | .list (.list (.list _ :: _) :: _) => rfl

/-- A fault is told with the place where it is found. -/
theorem onOutcome_mapError {α α' : Type} (g : α → α') (path : List Bytes) (x : Except Fault α) :
    onOutcome Malformed.lowered g (x.mapError (⟨·, path⟩)) =
      (onOutcome Fault.lowered g x).mapError (⟨·, path.map Bytes.lower⟩) := by
  cases x <;> rfl

theorem item_lowered_of_plain {f : Form Node} (plain : f.isTagForm = false) (path : List Bytes) :
    item s (path.map Bytes.lower) f.loweredData =
      onOutcome Malformed.lowered Node.lowered (item s path f) := by
  rw [item_of_isTagForm_eq_false plain, item_of_isTagForm_eq_false ((isTagForm_loweredData f).trans plain),
    onOutcome_mapError, data_loweredData]

mutual

theorem item_lowered (path : List Bytes) : (f : Form Node) → item s (path.map Bytes.lower) f.lowered =
    onOutcome Malformed.lowered Node.lowered (item s path f)
  | .list (.symbol name :: rest) => by
    have children := items_loweredAll (path ++ [name]) rest
    rw [List.map_append, List.map_singleton] at children
    rw [lowered, item, item]
    by_cases empty : name = []
    · subst empty
      rfl
    · rw [if_neg empty, if_neg (mt Bytes.lower_eq_nil_iff.1 empty), children]
      cases items s (path ++ [name]) rest <;> rfl
  | .list (.list (.symbol name :: entries) :: rest) => by
    have children := items_loweredAll (path ++ [name]) rest
    rw [List.map_append, List.map_singleton] at children
    rw [lowered, item, item]
    by_cases empty : name = []
    · subst empty
      rfl
    · rw [if_neg empty, if_neg (mt Bytes.lower_eq_nil_iff.1 empty), children, attributes_loweredEntries]
      cases attributes s entries with
      | error fault => simp [onOutcome, Except.mapError, bind, Except.bind, Malformed.lowered]
      | ok as => cases items s (path ++ [name]) rest <;> rfl
  | .symbol _ | .flag _ | .atom _ | .list [] | .list (.flag _ :: _) | .list (.atom _ :: _)
  | .list (.list [] :: _) | .list (.list (.flag _ :: _) :: _) | .list (.list (.atom _ :: _) :: _)
  | .list (.list (.list _ :: _) :: _) => item_lowered_of_plain rfl path

theorem items_loweredAll (path : List Bytes) : (fs : List (Form Node)) →
    items s (path.map Bytes.lower) (loweredAll fs) =
      onOutcome Malformed.lowered Node.loweredAll (items s path fs)
  | [] => rfl
  | f :: fs => by
    rw [loweredAll, items, items, item_lowered path f, items_loweredAll path fs]
    cases item s path f with
    | error _ => rfl
    | ok _ => cases items s path fs <;> rfl

end

theorem Fault.stage_lowered (fault : Fault) : fault.lowered.stage = fault.stage := by
  cases fault <;> rfl

/-- Forms that are the same in lower case come to the same in lower case. -/
theorem onOutcome_lowered_eq {t : Sentinels} (same : ∀ name, s.lookup? name = t.lookup? name)
    {fs gs : List (Form Node)} (spelled : loweredAll fs = loweredAll gs) :
    onOutcome Malformed.lowered Node.loweredAll (items s [] fs) =
      onOutcome Malformed.lowered Node.loweredAll (items t [] gs) := by
  rw [← items_loweredAll, ← items_loweredAll, spelled, items_congr same]

end Form

namespace Sentinels

/-- Some additions one after the other. One that is refused changes nothing. -/
def addEach (s : Sentinels) : List (Bytes × Bytes) → Sentinels
  | [] => s
  | (name, literal) :: rest => ((s.add name literal).toOption.getD s).addEach rest

theorem lookup?_toOption_add (s : Sentinels) (name literal other : Bytes) :
    ((s.add name literal).toOption.getD s).lookup? other =
      if name ≠ [] ∧ Bytes.lower other = Bytes.lower name then some (.sentinel (Bytes.lower name) literal)
      else s.lookup? other := by
  cases added : s.add name literal with
  | error e =>
    have empty : name = [] := add_eq_error_iff.1 (by rw [added])
    simp [empty, Except.toOption]
  | ok t =>
    have named : name ≠ [] := fun empty => by
      rw [add, if_pos empty] at added
      cases added
    simp [Except.toOption, lookup?_of_add added, named]

theorem lookup?_addEach_congr {adds adds' : List (Bytes × Bytes)}
    (spelled : List.Forall₂ (fun a b => Bytes.lower a.1 = Bytes.lower b.1 ∧ a.2 = b.2) adds adds')
    {s t : Sentinels} (same : ∀ name, s.lookup? name = t.lookup? name) (name : Bytes) :
    (s.addEach adds).lookup? name = (t.addEach adds').lookup? name := by
  induction spelled generalizing s t with
  | nil => exact same name
  | @cons a b adds adds' first _ ih =>
    obtain ⟨spelling, literal⟩ := first
    have empty : a.1 = [] ↔ b.1 = [] := by
      rw [← Bytes.lower_eq_nil_iff, spelling, Bytes.lower_eq_nil_iff]
    apply ih
    intro other
    rw [lookup?_toOption_add, lookup?_toOption_add, spelling, literal, same other]
    simp only [ne_eq, empty]

end Sentinels

/-- Whether names are written with small or capital letters has no influence on a build: forms that are the
same but for that, built with sentinels that were added alike but for that, both fail and in one stage, or
are built to trees that are written and counted the same, in which the same attributes are found at each
place. A byte that is no letter has one spelling. -/
theorem build_of_lowered_eq (base : Sentinels) {adds adds' : List (Bytes × Bytes)}
    (added : List.Forall₂ (fun a b => Bytes.SameSpelling a.1 b.1 ∧ a.2 = b.2) adds adds')
    {fs gs : List (Form Node)} (spelled : Form.loweredAll fs = Form.loweredAll gs)
    (log log' : Option Log) :
    let built := (Form.build (base.addEach adds) log fs).outcome
    let built' := (Form.build (base.addEach adds') log' gs).outcome
    ((∃ m m', built = .error m ∧ built' = .error m' ∧ m.fault.stage = m'.fault.stage ∧
        m.lowered = m'.lowered) ∨
      ∃ ns ms, built = .ok ns ∧ built' = .ok ms ∧
        (∀ l, render l ns = render l ms ∧ Render.totals l ns = Render.totals l ms) ∧
        ∀ (i : Nat) (path : List Node.Step) (n : Node) (e : Element Node),
          ns[i]? = some n → n.reach? path = some (.element e) →
            ∃ (m : Node) (f : Element Node), ms[i]? = some m ∧ m.reach? path = some (.element f) ∧
              e.AnswersAlike f) ∧
    (∀ (e : Element Node) name, e.attribute? name =
      (e.position? name).bind fun i => e.attributes[i]?.map Attribute.value) ∧
    (∀ name other, Bytes.SameSpelling name other ↔ Bytes.lower name = Bytes.lower other) ∧
    ∀ b c, Bytes.SameLetter b c → b < 65 ∨ 90 < b ∧ b < 97 ∨ 122 < b → b = c := by
  intro built built'
  refine ⟨?_, fun e name => e.attribute?_eq_position? name, fun _ _ => Bytes.lower_eq_lower_iff.symm,
    fun _ _ => Bytes.SameLetter.eq⟩
  have same : ∀ name, (base.addEach adds).lookup? name = (base.addEach adds').lookup? name := by
    refine Sentinels.lookup?_addEach_congr (added.imp ?_) fun _ => rfl
    intro a b h
    exact ⟨Bytes.lower_eq_lower_iff.2 h.1, h.2⟩
  have alike := Form.onOutcome_lowered_eq same spelled
  simp only [built, built', Form.outcome_build]
  cases made : Form.items (base.addEach adds) [] fs with
  | error m =>
    cases made' : Form.items (base.addEach adds') [] gs with
    | error m' =>
      rw [made, made'] at alike
      have fault : m.lowered = m'.lowered := Except.error.inj alike
      have stage : m.lowered.fault.stage = m'.lowered.fault.stage := by rw [fault]
      refine .inl ⟨m, m', rfl, rfl, ?_, fault⟩
      rwa [Form.Malformed.lowered, Form.Malformed.lowered, Form.Fault.stage_lowered,
        Form.Fault.stage_lowered] at stage
    | ok ms =>
      rw [made, made'] at alike
      cases alike
  | ok ns =>
    cases made' : Form.items (base.addEach adds') [] gs with
    | error m' =>
      rw [made, made'] at alike
      cases alike
    | ok ms =>
      rw [made, made'] at alike
      have trees : Node.loweredAll ns = Node.loweredAll ms := Except.ok.inj alike
      refine .inr ⟨ns, ms, rfl, rfl, ?_, ?_⟩
      · intro l
        have rendered : render l ns = render l ms := by
          rw [render_eq, render_eq, ← Markup.ofNodes_loweredAll, trees, Markup.ofNodes_loweredAll]
        have counted : Census.ofNodes ns = Census.ofNodes ms := by
          rw [← Census.ofNodes_loweredAll, trees, Census.ofNodes_loweredAll]
        rw [Render.totals_eq, Render.totals_eq, rendered, counted]
        exact ⟨rfl, rfl⟩
      · intro i path n e tree found
        obtain ⟨m, f, hm, hf, same⟩ := Node.reach?_of_loweredAll_eq trees tree found
        exact ⟨m, f, hm, hf, Element.answersAlike_of_lowered_eq same.symm⟩

/-- Names in every place where there can be one. The byte `196` is no letter. -/
def Form.named (tag key text inner sentinel : Bytes) : List (Form Node) :=
  [.list [.list [.symbol tag,
      .symbol key, .atom (.element { name := inner, attributes := [⟨key, .flag true⟩] }),
      .atom (.text text), .list [.symbol sentinel]],
    .symbol sentinel, .list [.symbol tag], .list [.flag true, .symbol sentinel]]]

def Form.capital : List (Form Node) :=
  named [66, 82] [84, 105] [90] [66] [88, 196]

def Form.small : List (Form Node) :=
  named [98, 82] [116, 73] [122] [98] [120, 196]

theorem build_of_lowered_eq_capital :
    List.Forall₂ (fun a b : Bytes × Bytes => Bytes.SameSpelling a.1 b.1 ∧ a.2 = b.2)
        [([88, 196], [60]), ([], [])] [([120, 196], [60]), ([], [])] ∧
      Form.loweredAll Form.capital = Form.loweredAll Form.small ∧
      ∃ ns ms, (Form.build (Sentinels.standard.addEach [([88, 196], [60]), ([], [])]) none
          Form.capital).outcome = .ok ns ∧
        (Form.build (Sentinels.standard.addEach [([120, 196], [60]), ([], [])]) none
          Form.small).outcome = .ok ms ∧
        render {} ns = render {} ms ∧
        ∃ m e f, ms[0]? = some m ∧ m.reach? [.value 0] = some (.element f) ∧
          Element.AnswersAlike e f ∧ e.hasAttribute [84, 73] = true := by
  have added : List.Forall₂ (fun a b : Bytes × Bytes => Bytes.SameSpelling a.1 b.1 ∧ a.2 = b.2)
      [([88, 196], [60]), ([], [])] [([120, 196], [60]), ([], [])] :=
    .cons ⟨Bytes.lower_eq_lower_iff.1 rfl, rfl⟩ (.cons ⟨Bytes.lower_eq_lower_iff.1 rfl, rfl⟩ .nil)
  have spelled : Form.loweredAll Form.capital = Form.loweredAll Form.small := rfl
  obtain ⟨outcome, -⟩ := build_of_lowered_eq .standard added spelled none none
  refine ⟨added, spelled, ?_⟩
  rcases outcome with ⟨m, _, failed, _⟩ | ⟨ns, ms, hns, hms, written, places⟩
  · cases failed
  · cases hns
    obtain ⟨m, f, hm, hf, alike⟩ := places 0 [.value 0] _ _ rfl rfl
    exact ⟨_, ms, rfl, hms, (written {}).1, m, _, f, hm, hf, alike, rfl⟩

end Hypertext
