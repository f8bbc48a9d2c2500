import LetPoly.Proofs.Loading

/-!
# Documents that are read alike

Reading a node looks at its kind, at the texts of scalars and at the texts of keys, and then goes on
with its parts. So a relation between nodes that keeps these, and that holds between the parts
again, holds only between nodes that are read alike: if one of them is a program, so is the other,
with the same tree and the same variables. The entries of a mapping may change places, since a form
finds its fields by their keys, and an alias may give way to something that is read like its target.

## Main definitions

* `Yaml.Node.Likeness`: a relation that the reading of nodes respects.
* `Outline.Alike`, `Loaded.Alike`: outlines with related parts, and the same tree with related
  positions.

## Main results

* `addFields_eq_ok_iff`: which entries are fields, said without their order.
* `exists_alike_of_outline`: related nodes have outlines with related parts.
* `exists_alike_of_load`: related nodes are loaded with the same tree.
* `Program.exists_of_ofNode`: related nodes hold the same program.
-/

namespace LetPoly

open Text (Position)
open Yaml (Node)

/-! ### Fields -/

/-- The texts of the keys. -/
def keyTexts (entries : List (Node × Node)) : List String :=
  entries.map fun e => e.1.keyText

theorem addFields_cons_eq_ok_iff {allowed : List String} {k v : Node} {entries : List (Node × Node)}
    {seen out : List (String × Node)} :
    addFields allowed ((k, v) :: entries) seen = .ok out ↔
      k.keyText ∈ allowed ∧ seen.lookup k.keyText = none ∧
        addFields allowed entries (seen ++ [(k.keyText, v)]) = .ok out := by
  rw [addFields]
  by_cases hallowed : k.keyText ∈ allowed
  · cases hseen : seen.lookup k.keyText <;> simp [hallowed, reject]
  · simp [hallowed, reject]

/-- **Which entries are fields, said without their order**: the keys are allowed, and each one
occurs once. -/
theorem addFields_eq_ok_iff {allowed : List String} {entries : List (Node × Node)}
    {seen out : List (String × Node)} :
    addFields allowed entries seen = .ok out ↔
      (∀ k ∈ keyTexts entries, k ∈ allowed ∧ seen.lookup k = none) ∧ (keyTexts entries).Nodup ∧
        out = seen ++ entries.map fun e => (e.1.keyText, e.2) := by
  induction entries generalizing seen with
  | nil => simp [addFields, keyTexts, @eq_comm _ out]
  | cons e entries ih =>
    obtain ⟨k, v⟩ := e
    -- the key of the first entry joins those that the other keys must differ from
    have hseen (key : String) : (seen ++ [(k.keyText, v)]).lookup key = none ↔
        seen.lookup key = none ∧ key ≠ k.keyText := by
      rw [List.lookup_append, Option.or_eq_none_iff, List.lookup_eq_none_iff (l := [_])]
      simp
    simp only [addFields_cons_eq_ok_iff, ih, hseen, keyTexts, List.map_cons, List.nodup_cons,
      List.forall_mem_cons, List.append_assoc, List.singleton_append]
    constructor
    · rintro ⟨hallowed, hnew, hkeys, hnodup, hout⟩
      exact ⟨⟨⟨hallowed, hnew⟩, fun x hx => ⟨(hkeys x hx).1, (hkeys x hx).2.1⟩⟩,
        ⟨fun hmem => (hkeys _ hmem).2.2 rfl, hnodup⟩, hout⟩
    · rintro ⟨⟨⟨hallowed, hnew⟩, hkeys⟩, ⟨hmem, hnodup⟩, hout⟩
      exact ⟨hallowed, hnew, fun x hx => ⟨(hkeys x hx).1, (hkeys x hx).2, fun h => hmem (h ▸ hx)⟩,
        hnodup, hout⟩

/-- Where no key occurs twice, every entry is found under its key. -/
theorem lookup_eq_some_iff_of_nodup {fields : List (String × Node)}
    (hnodup : (fields.map (·.1)).Nodup) {key : String} {v : Node} :
    fields.lookup key = some v ↔ (key, v) ∈ fields := by
  refine ⟨mem_of_lookup, fun hmem => ?_⟩
  induction fields with
  | nil => cases hmem
  | cons f fields ih =>
    rw [List.map_cons, List.nodup_cons] at hnodup
    rw [List.lookup_cons]
    rcases List.mem_cons.1 hmem with rfl | hmem
    · rw [beq_self_eq_true]
    · have hne : (key == f.1) = false := by
        rw [beq_eq_false_iff_ne]
        rintro rfl
        exact hnodup.1 (List.mem_map.2 ⟨_, hmem, rfl⟩)
      rw [hne]
      exact ih hnodup.2 hmem

theorem lookup_eq_of_perm {fields fields' : List (String × Node)}
    (hnodup : (fields.map (·.1)).Nodup) (h : fields.Perm fields') (key : String) :
    fields.lookup key = fields'.lookup key := by
  ext v
  rw [lookup_eq_some_iff_of_nodup hnodup,
    lookup_eq_some_iff_of_nodup ((h.map _).nodup_iff.1 hnodup), h.mem_iff]

/-! ### Related nodes -/

namespace Yaml.Node

/-- Two entries have the same key, at related positions, and related values. -/
structure EntryAlike (P : Position → Position → Prop) (R : Node → Node → Prop)
    (e f : Node × Node) : Prop where
  text : e.1.keyText = f.1.keyText
  position : P e.1.position f.1.position
  value : R e.2 f.2

/-- The relation `R` holds between nodes that are read alike, up to positions that `P` relates:
they are of one kind, their parts are related again, and in mappings the entries may have changed
places. What takes the place of an alias is read like something that its target is related to. -/
structure Likeness (P : Position → Position → Prop) (R : Node → Node → Prop) : Prop where
  refl (q : Position) : P q q
  scalar {q : Position} {tag text : String} {m : Node} (h : R (.scalar q tag text) m) :
    m = .scalar q tag text
  sequence {q : Position} {items : List Node} {m : Node} (h : R (.sequence q items) m) :
    ∃ items', m = .sequence q items' ∧ List.Forall₂ R items items'
  mapping {q : Position} {es : List (Node × Node)} {m : Node} (h : R (.mapping q es) m) :
    ∃ gs fs, m = .mapping q fs ∧ es.Perm gs ∧ List.Forall₂ (EntryAlike P R) gs fs
  aliased {q : Position} {name : String} {n m : Node} (h : R (.alias q name n) m) :
    ∃ m', outline m = outline m' ∧ R n m'

end Yaml.Node

open Yaml.Node (EntryAlike Likeness)

variable {P : Position → Position → Prop} {R : Node → Node → Prop}

section Entries

variable {es gs fs : List (Node × Node)}

theorem keyTexts_eq_of_alike (h : List.Forall₂ (EntryAlike P R) gs fs) :
    keyTexts gs = keyTexts fs := by
  induction h with
  | nil => rfl
  | cons he _ ih => exact congrArg₂ List.cons he.text ih

/-- The values under a key are related, wherever the entries stand. -/
theorem rel_lookup_of_alike (hperm : es.Perm gs) (h : List.Forall₂ (EntryAlike P R) gs fs)
    (hnodup : (keyTexts es).Nodup) (key : String) :
    Option.Rel R ((es.map fun e => (e.1.keyText, e.2)).lookup key)
      ((fs.map fun e => (e.1.keyText, e.2)).lookup key) := by
  have hkeys : ((es.map fun e => (e.1.keyText, e.2)).map (·.1)).Nodup := by
    rw [List.map_map]
    exact hnodup
  rw [lookup_eq_of_perm hkeys (hperm.map _)]
  clear hperm hnodup hkeys
  induction h with
  | nil => exact .none
  | cons he _ ih =>
    rw [List.map_cons, List.map_cons, List.lookup_cons, List.lookup_cons, he.text]
    split
    · exact .some he.value
    · exact ih

end Entries

section Reading

variable (hR : Likeness P R) {n m : Node} (h : R n m)

include hR h

/-- The fields of related mappings are found under the same keys. -/
theorem exists_alike_of_fields {required optional : List String} {f : Fields}
    (hf : fields n required optional = .ok f) :
    ∃ g, fields m required optional = .ok g ∧
      ∀ key, Option.Rel R (f.get? key) (g.get? key) := by
  cases n with
  | mapping q es =>
    obtain ⟨gs, fs, rfl, hes, hfs⟩ := hR.mapping h
    obtain ⟨out, hout, hf⟩ := checked_bind_eq_ok.1 hf
    rw [checked_pure_eq_ok] at hf
    subst hf
    obtain ⟨hkeys, hnodup, rfl⟩ := addFields_eq_ok_iff.1 hout
    have hperm : (keyTexts es).Perm (keyTexts fs) :=
      keyTexts_eq_of_alike hfs ▸ hes.map _
    have hadd := addFields_eq_ok_iff.2 ⟨fun k hk => hkeys k (hperm.mem_iff.2 hk),
      hperm.nodup_iff.1 hnodup, rfl⟩
    refine ⟨⟨q, _⟩, by rw [fields, hadd]; rfl, fun key => ?_⟩
    exact rel_lookup_of_alike hes hfs hnodup key
  | _ => exact absurd hf reject_ne_ok

theorem identifier_of_alike {x : String} (hx : identifier n = .ok x) : identifier m = .ok x := by
  cases n with
  | scalar q tag text => rw [hR.scalar h, hx]
  | _ => exact absurd hx reject_ne_ok

theorem typeName_of_alike {t : Ty} (ht : typeName n = .ok t) : typeName m = .ok t := by
  cases n with
  | scalar q tag text => rw [hR.scalar h, ht]
  | _ => exact absurd ht reject_ne_ok

theorem exists_alike_of_listed {items : List Node} (hitems : listed n = .ok items) :
    ∃ items', listed m = .ok items' ∧ List.Forall₂ R items items' := by
  cases n with
  | sequence q ns =>
    obtain rfl := Except.ok.inj hitems
    obtain ⟨ms, rfl, hms⟩ := hR.sequence h
    exact ⟨ms, rfl, hms⟩
  | _ => exact absurd hitems reject_ne_ok

theorem exists_alike_of_operands {items : List Node} (hitems : operands n = .ok items) :
    ∃ items', operands m = .ok items' ∧ List.Forall₂ R items items' := by
  cases n with
  | sequence q ns =>
    obtain ⟨ms, rfl, hms⟩ := hR.sequence h
    rw [operands] at hitems ⊢
    rw [← hms.length_eq]
    split at hitems
    · rename_i hlength
      obtain rfl := Except.ok.inj hitems
      exact ⟨ms, if_pos hlength, hms⟩
    · exact absurd hitems reject_ne_ok
  | _ => exact absurd hitems reject_ne_ok

omit h in
theorem identifierList_of_alike {ns ms : List Node} (h : List.Forall₂ R ns ms)
    {names : List String} (hnames : identifierList ns = .ok names) :
    identifierList ms = .ok names := by
  induction h generalizing names with
  | nil => exact hnames
  | cons hn _ ih =>
    rw [identifierList] at hnames ⊢
    obtain ⟨x, hx, hnames⟩ := checked_bind_eq_ok.1 hnames
    obtain ⟨xs, hxs, hnames⟩ := checked_bind_eq_ok.1 hnames
    rw [identifier_of_alike hR hn hx, ih hxs]
    exact hnames

theorem identifiers_of_alike {names : List String} (hnames : identifiers n = .ok names) :
    identifiers m = .ok names := by
  cases n with
  | sequence q ns =>
    obtain ⟨ms, rfl, hms⟩ := hR.sequence h
    exact identifierList_of_alike hR hms hnames
  | _ => exact absurd hnames reject_ne_ok

end Reading

/-- A key that may be missing is missing in both mappings, or has related values. -/
theorem get?_cases {f g : Fields} (h : ∀ key, Option.Rel R (f.get? key) (g.get? key))
    (key : String) : (f.get? key = none ∧ g.get? key = none) ∨
      ∃ v w, f.get? key = some v ∧ g.get? key = some w ∧ R v w := by
  have hrel := h key
  generalize f.get? key = v at hrel ⊢
  generalize g.get? key = w at hrel ⊢
  cases hrel with
  | none => exact .inl ⟨rfl, rfl⟩
  | some hvw => exact .inr ⟨_, _, rfl, rfl, hvw⟩

theorem get_of_rel {f g : Fields} (h : ∀ key, Option.Rel R (f.get? key) (g.get? key))
    {key : String} {v : Node} (hv : f.get key = .ok v) : ∃ w, g.get key = .ok w ∧ R v w := by
  rcases get?_cases h key with ⟨hnone, -⟩ | ⟨v', w, hv', hw, hvw⟩
  · rw [Fields.get?, lookup_of_get hv] at hnone
    cases hnone
  · rw [Fields.get?, lookup_of_get hv] at hv'
    obtain rfl := Option.some.inj hv'
    rw [Fields.get?] at hw
    exact ⟨w, by rw [Fields.get, hw], hvw⟩

/-! ### Outlines -/

/-- The outlines of two nodes have the same head and related parts. -/
structure Outline.Alike (P : Position → Position → Prop) (R : Node → Node → Prop)
    (o o' : Outline) : Prop where
  position : P o.position o'.position
  head : o'.head = o.head
  deferred : o'.deferred = none
  parts : List.Forall₂ R o.parts o'.parts

section Forms

variable (hR : Likeness P R) {q q' : Position} (hq : P q q') {n m : Node} {o : Outline} (h : R n m)

include hR hq h

theorem exists_alike_of_iteOutline (ho : iteOutline q n = .ok o) :
    ∃ o', iteOutline q' m = .ok o' ∧ o.Alike P R o' := by
  simp only [iteOutline, checked_bind_eq_ok, checked_pure_eq_ok] at ho ⊢
  obtain ⟨f, hf, c, hc, t, ht, e, he, rfl⟩ := ho
  obtain ⟨g, hg, hrel⟩ := exists_alike_of_fields hR h hf
  obtain ⟨c', hc', hcc⟩ := get_of_rel hrel hc
  obtain ⟨t', ht', htt⟩ := get_of_rel hrel ht
  obtain ⟨e', he', hee⟩ := get_of_rel hrel he
  exact ⟨_, ⟨g, hg, c', hc', t', ht', e', he', rfl⟩,
    ⟨hq, rfl, rfl, .cons hcc (.cons htt (.cons hee .nil))⟩⟩

theorem exists_alike_of_letOutline (ho : letOutline q n = .ok o) (hd : o.deferred = none) :
    ∃ o', letOutline q' m = .ok o' ∧ o.Alike P R o' := by
  simp only [letOutline, checked_bind_eq_ok] at ho ⊢
  obtain ⟨f, hf, x, hx, v, hv, b, hb, name, hname, ho⟩ := ho
  obtain ⟨g, hg, hrel⟩ := exists_alike_of_fields hR h hf
  obtain ⟨x', hx', hxx⟩ := get_of_rel hrel hx
  obtain ⟨v', hv', hvv⟩ := get_of_rel hrel hv
  obtain ⟨b', hb', hbb⟩ := get_of_rel hrel hb
  have hname' := identifier_of_alike hR hxx hname
  -- the key for the type may be missing, and then it is so in both mappings
  rcases get?_cases hrel "type" with ⟨ht, ht'⟩ | ⟨t, t', ht, ht', htt⟩
  · rw [ht] at ho
    obtain rfl := checked_pure_eq_ok.1 ho
    refine ⟨⟨q', .letIn (untyped name), [v', b'], none⟩,
      ⟨g, hg, x', hx', v', hv', b', hb', name, hname', ?_⟩, ?_⟩
    · rw [ht']
      rfl
    · exact ⟨hq, rfl, rfl, .cons hvv (.cons hbb .nil)⟩
  · rw [ht, Option.map_some] at ho
    cases htype : typeName t with
    | error e =>
      rw [htype] at ho
      obtain rfl := checked_pure_eq_ok.1 ho
      cases hd
    | ok type =>
      rw [htype] at ho
      obtain rfl := checked_pure_eq_ok.1 ho
      refine ⟨⟨q', .letIn ⟨name, type⟩, [v', b'], none⟩,
        ⟨g, hg, x', hx', v', hv', b', hb', name, hname', ?_⟩, ?_⟩
      · rw [ht', Option.map_some, typeName_of_alike hR htt htype]
        rfl
      · exact ⟨hq, rfl, rfl, .cons hvv (.cons hbb .nil)⟩

theorem exists_alike_of_letRecOutline (ho : letRecOutline q n = .ok o) :
    ∃ o', letRecOutline q' m = .ok o' ∧ o.Alike P R o' := by
  simp only [letRecOutline, checked_bind_eq_ok, checked_pure_eq_ok] at ho ⊢
  obtain ⟨f, hf, x, hx, as, has, b, hb, r, hr, name, hname, args, hargs, rfl⟩ := ho
  obtain ⟨g, hg, hrel⟩ := exists_alike_of_fields hR h hf
  obtain ⟨x', hx', hxx⟩ := get_of_rel hrel hx
  obtain ⟨as', has', haa⟩ := get_of_rel hrel has
  obtain ⟨b', hb', hbb⟩ := get_of_rel hrel hb
  obtain ⟨r', hr', hrr⟩ := get_of_rel hrel hr
  exact ⟨_, ⟨g, hg, x', hx', as', has', b', hb', r', hr', name, identifier_of_alike hR hxx hname,
    args, identifiers_of_alike hR haa hargs, rfl⟩, ⟨hq, rfl, rfl, .cons hbb (.cons hrr .nil)⟩⟩

theorem exists_alike_of_appOutline (ho : appOutline q n = .ok o) (hd : o.deferred = none) :
    ∃ o', appOutline q' m = .ok o' ∧ o.Alike P R o' := by
  simp only [appOutline, checked_bind_eq_ok] at ho ⊢
  obtain ⟨f, hf, fn, hfn, ho⟩ := ho
  obtain ⟨g, hg, hrel⟩ := exists_alike_of_fields hR h hf
  obtain ⟨fn', hfn', hff⟩ := get_of_rel hrel hfn
  rcases get?_cases hrel "args" with ⟨ha, ha'⟩ | ⟨a, a', ha, ha', haa⟩
  · rw [ha] at ho
    obtain rfl := checked_pure_eq_ok.1 ho
    refine ⟨⟨q', .app, [fn'], none⟩, ⟨g, hg, fn', hfn', ?_⟩, ?_⟩
    · rw [ha']
      rfl
    · exact ⟨hq, rfl, rfl, .cons hff .nil⟩
  · rw [ha, Option.map_some] at ho
    cases hargs : listed a with
    | error e =>
      rw [hargs] at ho
      obtain rfl := checked_pure_eq_ok.1 ho
      cases hd
    | ok args =>
      rw [hargs] at ho
      obtain rfl := checked_pure_eq_ok.1 ho
      obtain ⟨args', hargs', hparts⟩ := exists_alike_of_listed hR haa hargs
      refine ⟨⟨q', .app, fn' :: args', none⟩, ⟨g, hg, fn', hfn', ?_⟩, ?_⟩
      · rw [ha', Option.map_some, hargs']
        rfl
      · exact ⟨hq, rfl, rfl, .cons hff hparts⟩

theorem exists_alike_of_letTupleOutline (ho : letTupleOutline q n = .ok o) :
    ∃ o', letTupleOutline q' m = .ok o' ∧ o.Alike P R o' := by
  simp only [letTupleOutline, checked_bind_eq_ok, checked_pure_eq_ok] at ho ⊢
  obtain ⟨f, hf, x, hx, v, hv, b, hb, names, hnames, rfl⟩ := ho
  obtain ⟨g, hg, hrel⟩ := exists_alike_of_fields hR h hf
  obtain ⟨x', hx', hxx⟩ := get_of_rel hrel hx
  obtain ⟨v', hv', hvv⟩ := get_of_rel hrel hv
  obtain ⟨b', hb', hbb⟩ := get_of_rel hrel hb
  exact ⟨_, ⟨g, hg, x', hx', v', hv', b', hb', names, identifiers_of_alike hR hxx hnames, rfl⟩,
    ⟨hq, rfl, rfl, .cons hvv (.cons hbb .nil)⟩⟩

theorem exists_alike_of_form {name : String} (ho : form q name n = .ok o) (hd : o.deferred = none) :
    ∃ o', form q' name m = .ok o' ∧ o.Alike P R o' := by
  unfold form at ho ⊢
  split at ho
  · obtain ⟨items, hitems, ho⟩ := checked_bind_eq_ok.1 ho
    obtain rfl := checked_pure_eq_ok.1 ho
    obtain ⟨items', hitems', hparts⟩ := exists_alike_of_operands hR h hitems
    refine ⟨⟨q', _, items', none⟩, ?_, ⟨hq, rfl, rfl, hparts⟩⟩
    rw [hitems']
    rfl
  · split at ho
    · obtain ⟨x, hx, ho⟩ := checked_bind_eq_ok.1 ho
      obtain rfl := checked_pure_eq_ok.1 ho
      refine ⟨⟨q', .leaf (.var x), [], none⟩, ?_, ⟨hq, rfl, rfl, .nil⟩⟩
      rw [identifier_of_alike hR h hx]
      rfl
    · obtain rfl := Except.ok.inj ho
      exact ⟨⟨q', .not, [m], none⟩, rfl, ⟨hq, rfl, rfl, .cons h .nil⟩⟩
    · obtain rfl := Except.ok.inj ho
      exact ⟨⟨q', .neg, [m], none⟩, rfl, ⟨hq, rfl, rfl, .cons h .nil⟩⟩
    · obtain ⟨items, hitems, ho⟩ := checked_bind_eq_ok.1 ho
      obtain rfl := checked_pure_eq_ok.1 ho
      obtain ⟨items', hitems', hparts⟩ := exists_alike_of_listed hR h hitems
      refine ⟨⟨q', .tuple, items', none⟩, ?_, ⟨hq, rfl, rfl, hparts⟩⟩
      rw [hitems']
      rfl
    · exact exists_alike_of_iteOutline hR hq h ho
    · exact exists_alike_of_letOutline hR hq h ho hd
    · exact exists_alike_of_letRecOutline hR hq h ho
    · exact exists_alike_of_appOutline hR hq h ho hd
    · exact exists_alike_of_letTupleOutline hR hq h ho
    · exact absurd ho reject_ne_ok

end Forms

/-- Related nodes have outlines with related parts. -/
theorem exists_alike_of_outline (hR : Likeness P R) {n m : Node} {o : Outline} (h : R n m)
    (ho : outline n = .ok o) (hd : o.deferred = none) :
    ∃ o', outline m = .ok o' ∧ o.Alike P R o' := by
  fun_induction outline n generalizing m with
  | case1 q name target ih =>
    obtain ⟨m', hm, htarget⟩ := hR.aliased h
    rw [hm]
    exact ih htarget ho
  | case2 q tag text =>
    rw [hR.scalar h]
    obtain ⟨e, he, ho⟩ := checked_bind_eq_ok.1 ho
    obtain rfl := checked_pure_eq_ok.1 ho
    refine ⟨⟨q, .leaf e, [], none⟩, ?_, ⟨hR.refl q, rfl, rfl, .nil⟩⟩
    rw [outline, he]
    rfl
  | case3 q items =>
    obtain rfl := Except.ok.inj ho
    obtain ⟨items', rfl, hparts⟩ := hR.sequence h
    exact ⟨_, rfl, ⟨hR.refl q, rfl, rfl, hparts⟩⟩
  | case4 q key value =>
    obtain ⟨gs, fs, rfl, hperm, hfs⟩ := hR.mapping h
    rw [← List.singleton_perm.1 hperm] at hfs
    obtain _ | ⟨hentry, _ | _⟩ := hfs
    rw [outline, ← hentry.text]
    exact exists_alike_of_form hR hentry.position hentry.value ho hd
  | case5 => exact absurd ho reject_ne_ok

/-! ### Programs -/

/-- What has been loaded is the same tree, with related positions. -/
structure Loaded.Alike (P : Position → Position → Prop) (l l' : Loaded) : Prop where
  tree : l'.tree = l.tree
  positions : List.Forall₂ P l.positions l'.positions

theorem mapM_load_eq_ok_iff {ns : List Node} {ls : List Loaded} :
    ns.mapM load = .ok ls ↔ List.Forall₂ (fun n l => load n = .ok l) ns ls := by
  refine ⟨forall₂_of_mapM, fun h => ?_⟩
  induction h with
  | nil => rfl
  | cons hl _ ih => rw [List.mapM_cons, hl, ih]; rfl

theorem exists_alike_of_forall₂ {ns ms : List Node} {ls : List Loaded}
    (hparts : List.Forall₂ R ns ms)
    (hload : ∀ n ∈ ns, ∀ {m l}, R n m → load n = .ok l → ∃ l', load m = .ok l' ∧ l.Alike P l')
    (hls : List.Forall₂ (fun n l => load n = .ok l) ns ls) :
    ∃ ls', List.Forall₂ (fun m l => load m = .ok l) ms ls' ∧
      List.Forall₂ (Loaded.Alike P) ls ls' := by
  induction hparts generalizing ls with
  | nil =>
    cases hls
    exact ⟨[], .nil, .nil⟩
  | cons hn _ ih =>
    cases hls with
    | cons hl hls =>
      rw [List.forall_mem_cons] at hload
      obtain ⟨l', hl', halike⟩ := hload.1 hn hl
      obtain ⟨ls', hls', halikes⟩ := ih hload.2 hls
      exact ⟨l' :: ls', .cons hl' hls', .cons halike halikes⟩

theorem map_tree_of_alike {ls ls' : List Loaded} (h : List.Forall₂ (Loaded.Alike P) ls ls') :
    ls'.map (·.tree) = ls.map (·.tree) := by
  induction h with
  | nil => rfl
  | cons hl _ ih => exact congrArg₂ List.cons hl.tree ih

theorem Outline.Alike.exists_of_finish {o o' : Outline} (h : o.Alike P R o')
    {ls ls' : List Loaded} (hls : List.Forall₂ (Loaded.Alike P) ls ls') {l : Loaded}
    (hl : o.finish ls = .ok l) : ∃ l', o'.finish ls' = .ok l' ∧ l.Alike P l' := by
  unfold Outline.finish at hl ⊢
  rw [h.deferred, h.head, map_tree_of_alike hls]
  split at hl
  · cases hl
  · obtain rfl := Except.ok.inj hl
    exact ⟨_, rfl, ⟨rfl, .cons h.position (List.rel_flatMap hls fun _ _ hl => hl.positions)⟩⟩

/-- Related nodes are loaded with the same tree, at related positions. -/
theorem exists_alike_of_load (hR : Likeness P R) {n m : Node} {l : Loaded} (h : R n m)
    (hl : load n = .ok l) : ∃ l', load m = .ok l' ∧ l.Alike P l' := by
  induction n using load.induct generalizing m l with
  | case1 n e he =>
    rw [load_eq, he] at hl
    cases hl
  | case2 n o ho ih =>
    rw [load_eq, checked_bind_eq_ok] at hl
    obtain ⟨_, ho', hl⟩ := hl
    obtain rfl := Except.ok.inj (ho.symm.trans ho')
    obtain ⟨ls, hls, hl⟩ := checked_bind_eq_ok.1 hl
    have hd : o.deferred = none := by
      unfold Outline.finish at hl
      split at hl
      · cases hl
      · assumption
    obtain ⟨o', ho', halike⟩ := exists_alike_of_outline hR h ho hd
    obtain ⟨ls', hls', halikes⟩ :=
      exists_alike_of_forall₂ halike.parts (fun p hp => ih p hp) (mapM_load_eq_ok_iff.1 hls)
    obtain ⟨l', hl', hfinish⟩ := halike.exists_of_finish halikes hl
    refine ⟨l', ?_, hfinish⟩
    rw [load_eq, checked_bind_eq_ok]
    exact ⟨o', ho', checked_bind_eq_ok.2 ⟨ls', mapM_load_eq_ok_iff.2 hls', hl'⟩⟩

/-- Related nodes hold the same program, at related positions. -/
theorem Program.exists_of_ofNode (hR : Likeness P R) {n m : Node} {p : Program} (h : R n m)
    (hp : ofNode n = .ok p) : ∃ p', ofNode m = .ok p' ∧ p'.tree = p.tree ∧ p'.supply = p.supply ∧
      List.Forall₂ P p.positions p'.positions := by
  obtain ⟨l, hl, hp⟩ := checked_bind_eq_ok.1 hp
  obtain ⟨l', hl', halike⟩ := exists_alike_of_load hR h hl
  obtain rfl := checked_pure_eq_ok.1 hp
  refine ⟨_, checked_bind_eq_ok.2 ⟨l', hl', rfl⟩, ?_, ?_, halike.positions⟩
  · exact congrArg (fun e => (e.fillSlots ⟨0⟩).1) halike.tree
  · exact congrArg (fun e => (e.fillSlots ⟨0⟩).2) halike.tree

end LetPoly
