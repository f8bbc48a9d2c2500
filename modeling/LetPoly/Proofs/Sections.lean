import LetPoly.Log.Basic
import Mathlib.Data.List.Basic

/-!
# Sections of the log

A logger is made from another one by giving it attributes to carry, or a group to put all further
attributes into. The sections of a logger are those that it has been given anywhere along the way: a
group changes how an attribute is written and not whether it names a section. So whether a record is
written depends on the attributes of the record and of the whole chain, and on nothing else.

## Main definitions

* `Log.Extension`, `Log.Logger.extendAll`: the ways to make a logger from another one, and chains of
  them.
* `Log.Settings.Covers`: some attribute names a section that is enabled.

## Main results

* `Log.Logger.sections_extendAll`: the sections that a logger has been given.
* `Log.Logger.emit?_eq_some_iff`: when a logger that is held to the sections writes a record.
* `Log.Logger.written_iff`: when a logger that comes from the shared one writes a record.
-/

namespace LetPoly.Log

/-! ### Attributes and sections -/

theorem mem_sectionsOf {attrs : List Attr} {name : String} :
    name ∈ sectionsOf attrs ↔ ∃ a ∈ attrs, a.key = sectionKey ∧ a.value = name := by
  simp [sectionsOf, and_assoc]

theorem sectionsOf_append (xs ys : List Attr) :
    sectionsOf (xs ++ ys) = sectionsOf xs ++ sectionsOf ys := by
  rw [sectionsOf, List.filter_append, List.map_append]
  rfl

namespace Settings

variable {s : Settings}

theorem allows_iff {name : String} :
    s.allows name = true ↔ ∃ enabled ∈ s.sections, enabled.toList <+: name.toList := by
  simp [allows]

theorem enabled_iff {name : String} :
    s.enabled name = true ↔ s.level ≤ Level.debug ∧ s.allows name = true := by
  simp [enabled]

/-- Some attribute names a section that starts with the name of an enabled one. -/
def Covers (s : Settings) (attrs : List Attr) : Prop :=
  ∃ a ∈ attrs, a.key = "section" ∧ ∃ enabled ∈ s.sections, enabled.toList <+: a.value.toList

theorem covers_iff {attrs : List Attr} :
    s.Covers attrs ↔ ∃ name ∈ sectionsOf attrs, s.allows name = true := by
  constructor
  · rintro ⟨a, ha, hkey, henabled⟩
    exact ⟨a.value, mem_sectionsOf.2 ⟨a, ha, hkey, rfl⟩, allows_iff.2 henabled⟩
  · rintro ⟨name, hname, hallows⟩
    obtain ⟨a, ha, hkey, rfl⟩ := mem_sectionsOf.1 hname
    exact ⟨a, ha, hkey, allows_iff.1 hallows⟩

/-- If the attributes name one section only, it is the one that counts. -/
theorem covers_iff_allows {attrs : List Attr} {name : String} (hname : ⟨"section", name⟩ ∈ attrs)
    (hother : ∀ a ∈ attrs, a.key = "section" → a.value = name) :
    s.Covers attrs ↔ s.allows name = true := by
  rw [allows_iff]
  constructor
  · rintro ⟨a, ha, hkey, henabled⟩
    rwa [hother a ha hkey] at henabled
  · exact fun henabled => ⟨_, hname, rfl, henabled⟩

end Settings

/-! ### Chains of loggers -/

/-- A way to make a logger from another one. -/
inductive Extension where
  /-- It carries further attributes. -/
  | carry (attrs : List Attr)
  /-- It puts all further attributes into a group. -/
  | group (name : String)

/-- The attributes that an extension brings. -/
def Extension.brings : Extension → List Attr
  | .carry attrs => attrs
  | .group _ => []

namespace Logger

/-- The logger that is extended in one way. -/
def extend (l : Logger) : Extension → Logger
  | .carry attrs => l.withAttrs attrs
  | .group name => l.group name

/-- The logger at the end of a chain of extensions, first extension first. -/
def extendAll (l : Logger) (chain : List Extension) : Logger :=
  chain.foldl extend l

theorem filtered_extend (l : Logger) (x : Extension) : (l.extend x).filtered = l.filtered := by
  cases x with
  | carry attrs => rfl
  | group name =>
    rw [extend, group]
    split <;> rfl

theorem sections_extend (l : Logger) (x : Extension) :
    (l.extend x).sections = l.sections ++ sectionsOf x.brings := by
  cases x with
  | carry attrs => rfl
  | group name =>
    rw [Extension.brings, sectionsOf, List.filter_nil, List.map_nil, List.append_nil, extend, group]
    split <;> rfl

theorem filtered_extendAll (l : Logger) (chain : List Extension) :
    (l.extendAll chain).filtered = l.filtered := by
  induction chain generalizing l with
  | nil => rfl
  | cons x chain ih => exact (ih (l.extend x)).trans (l.filtered_extend x)

/-- **The sections of a logger** are those among the attributes that the chain has brought, whether
they were put into groups or not. -/
theorem sections_extendAll (l : Logger) (chain : List Extension) :
    (l.extendAll chain).sections =
      l.sections ++ sectionsOf (chain.flatMap Extension.brings) := by
  induction chain generalizing l with
  | nil => exact (List.append_nil l.sections).symm
  | cons x chain ih =>
    calc ((l.extend x).extendAll chain).sections
        = (l.extend x).sections ++ sectionsOf (chain.flatMap Extension.brings) := ih (l.extend x)
      _ = l.sections ++ (sectionsOf x.brings ++ sectionsOf (chain.flatMap Extension.brings)) := by
        rw [sections_extend, List.append_assoc]
      _ = l.sections ++ sectionsOf ((x :: chain).flatMap Extension.brings) := by
        rw [← sectionsOf_append, List.flatMap_cons]

/-! ### What is written -/

/-- A logger that is held to the sections writes a record that is serious enough, if it is a warning
or if the logger or the record names an enabled section. -/
theorem emit?_eq_some_iff {l : Logger} (hl : l.filtered = true) {s : Settings} {r : Record} :
    l.emit? s r = some (l.line r) ↔ s.level ≤ r.level ∧
      (Level.warn ≤ r.level ∨ ∃ name ∈ l.sections ++ sectionsOf r.attrs, s.allows name = true) := by
  have hemit : l.emit? s r = some (l.line r) ↔ l.accepts s r = true := by
    rw [emit?]
    split <;> simp [*]
  rw [hemit, accepts, hl]
  simp [or_and_right, exists_or, or_assoc]

/-- **When a record is written.** A logger that comes from the shared one by a chain of extensions
writes a record if it is serious enough and, unless it is a warning, some attribute of the record or
of the chain names a section that starts with the name of an enabled one. So debugging is on for a
section if a debug record is written that belongs to this section and to no other. -/
theorem written_iff (s : Settings) (chain : List Extension) (r : Record) :
    let l := shared.extendAll chain
    let attrs := r.attrs ++ chain.flatMap Extension.brings
    (l.emit? s r = some (l.line r) ↔
      s.level ≤ r.level ∧ (Level.warn ≤ r.level ∨ s.Covers attrs)) ∧
    (l.emit? s r = none ↔
      ¬ (s.level ≤ r.level ∧ (Level.warn ≤ r.level ∨ s.Covers attrs))) ∧
    ∀ name, r.level = Level.debug → ⟨"section", name⟩ ∈ attrs →
      (∀ a ∈ attrs, a.key = "section" → a.value = name) →
        (s.enabled name = true ↔ l.emit? s r = some (l.line r)) := by
  intro l attrs
  have hwritten : l.emit? s r = some (l.line r) ↔
      s.level ≤ r.level ∧ (Level.warn ≤ r.level ∨ s.Covers attrs) := by
    rw [emit?_eq_some_iff (filtered_extendAll shared chain), Settings.covers_iff,
      sections_extendAll, sectionsOf_append]
    simp [shared, or_comm, or_and_right, exists_or]
  refine ⟨hwritten, ?_, fun name hlevel hname hother => ?_⟩
  · rw [← hwritten, emit?]
    split <;> simp
  · have hwarn : ¬ Level.warn ≤ Level.debug := by decide
    rw [hwritten, hlevel, Settings.enabled_iff, Settings.covers_iff_allows hname hother]
    exact and_congr_right fun _ => (or_iff_right hwarn).symm

/-- A chain that names a section inside a group. -/
def nestedChain : List Extension :=
  [.carry [⟨"id", "7"⟩], .group "pass", .carry [⟨"section", "unify.solve"⟩], .group "step"]

/-- The section counts, though it is written under another key. -/
theorem written_iff_nestedChain :
    (shared.extendAll nestedChain).emit? ⟨Level.debug, ["parse", "uni"]⟩
        ⟨Level.debug, "bind", [⟨"var", "a"⟩]⟩ =
      some "level=DEBUG msg=bind id=7 pass.section=unify.solve pass.step.var=a" ∧
    Settings.enabled ⟨Level.debug, ["parse", "uni"]⟩ "unify.solve" = true := by
  have hline : (shared.extendAll nestedChain).line ⟨Level.debug, "bind", [⟨"var", "a"⟩]⟩ =
      "level=DEBUG msg=bind id=7 pass.section=unify.solve pass.step.var=a" := by
    decide
  obtain ⟨hwritten, -, henabled⟩ := written_iff ⟨Level.debug, ["parse", "uni"]⟩ nestedChain
    ⟨Level.debug, "bind", [⟨"var", "a"⟩]⟩
  have hemit := hwritten.2
    ⟨by decide, .inr ⟨⟨"section", "unify.solve"⟩, by decide, rfl, by decide⟩⟩
  exact ⟨hline ▸ hemit, (henabled "unify.solve" rfl (by decide) (by decide)).2 hemit⟩

end Logger

end LetPoly.Log
