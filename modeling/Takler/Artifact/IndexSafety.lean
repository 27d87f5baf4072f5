import Takler.Artifact.PathIndex

/-!
# The index of artifact paths follows the fields

While a path that resolved to itself keeps doing so, and every path resolves to something, the index
is the exact inverse of the fields, its counter is exact, no call raises, and a query answers for the
resolution of its moment. The links that are kept aside may change at any time. Once a plain path
becomes a link, the index looks for its entry in the wrong place; and a loop of links makes `resolve`
itself raise, out of the call that meets it.

## Main definitions

* `owners`: the fields that the index has for a path.
* `Sound`: the invariant of the index and the fields.

## Main results

* `sound_drop`, `sound_record`, `sound_update`, `sound_refresh`: the parts of the calls keep it.
* `sound_of_reachable`: it holds in every run whose calls are `Steady`.
-/

namespace Takler.Artifact

variable {T V P : Type} [DecidableEq T] [DecidableEq P] {abspath : V → P} {resolve : V → Option P}

/-! ### Buckets -/

section Buckets

variable {d : OrderedDict P (Owners T)} {path : P} {key : Key T}

/-- The fields that refer to a path. -/
def owners (d : OrderedDict P (Owners T)) (path : P) : List (Key T) :=
  ((d.get? path).map Owners.keys).getD []

/-- A set of fields has at least two. -/
def Owners.Shaped (o : Owners T) : Prop := ∀ keys, o = .many keys → keys.Nodup ∧ 2 ≤ keys.length

/-- All buckets are shaped. -/
def Shaped (d : OrderedDict P (Owners T)) : Prop :=
  ∀ path o, d.get? path = some o → o.Shaped

omit [DecidableEq T] in
theorem owners_eq {o : Owners T} (h : d.get? path = some o) : owners d path = o.keys := by
  rw [owners, h]
  rfl

omit [DecidableEq T] in
theorem owners_set (o : Owners T) (q : P) :
    owners (d.set path o) q = if q = path then o.keys else owners d q := by
  unfold owners
  rw [OrderedDict.get?_set]
  split_ifs <;> rfl

omit [DecidableEq T] in
theorem owners_erase (q : P) :
    owners (d.erase path) q = if q = path then [] else owners d q := by
  unfold owners
  rw [OrderedDict.get?_erase]
  split_ifs <;> rfl

omit [DecidableEq T] in
theorem Shaped.set (hd : Shaped d) {o : Owners T} (ho : o.Shaped) : Shaped (d.set path o) := by
  intro q o' hq
  rw [OrderedDict.get?_set] at hq
  split_ifs at hq
  · exact Option.some.inj hq ▸ ho
  · exact hd q o' hq

omit [DecidableEq T] in
theorem Shaped.erase (hd : Shaped d) : Shaped (d.erase path) := by
  intro q o hq
  rw [OrderedDict.get?_erase] at hq
  split_ifs at hq
  exact hd q o hq

omit [DecidableEq T] in
theorem keys_ofRest (keys : List (Key T)) : (Owners.ofRest keys).keys = keys := by
  unfold Owners.ofRest
  split <;> rfl

omit [DecidableEq T] in
theorem shaped_ofRest {keys : List (Key T)} (hn : keys.Nodup) (hl : keys ≠ []) :
    (Owners.ofRest keys).Shaped := by
  intro keys' h
  rcases keys with _ | ⟨a, _ | ⟨b, l⟩⟩
  · exact absurd rfl hl
  · cases h
  · obtain rfl := Owners.many.inj h
    exact ⟨hn, by simp⟩

/-- A field that is in the bucket of a path is taken out of it. -/
theorem removeEntry_spec {x : Index T P} (hx : Shaped x.byPath)
    (hkey : key ∈ owners x.byPath path) :
    ∃ y, x.removeEntry key path = .ok y ∧ Shaped y.byPath ∧
      (∀ q k, k ∈ owners y.byPath q ↔ k ∈ owners x.byPath q ∧ ¬ (q = path ∧ k = key)) ∧
      y.symlinkFields = x.symlinkFields ∧ y.entryCount = x.entryCount - 1 := by
  unfold Index.removeEntry
  cases hget : x.byPath.get? path with
  | none =>
    rw [owners, hget] at hkey
    exact absurd hkey List.not_mem_nil
  | some o =>
    have howners := owners_eq hget
    rw [howners] at hkey
    cases o with
    | one owner =>
      have hone : owner = key := (List.mem_singleton.mp hkey).symm
      refine ⟨_, if_pos hone, hx.erase, fun q k => ?_, rfl, rfl⟩
      rw [owners_erase]
      split_ifs with hq
      · rw [hq, howners]
        simp [Owners.keys, hone]
      · simp [hq]
    | many keys =>
      obtain ⟨hn, hl⟩ := hx path _ hget keys rfl
      have hlen := List.length_erase_of_mem hkey
      have hne : keys.erase key ≠ [] := by
        rw [← List.length_pos_iff]
        show 0 < ((Owners.many keys).keys.erase key).length
        rw [hlen]
        show 0 < keys.length - 1
        omega
      refine ⟨_, if_pos hkey, hx.set (shaped_ofRest (hn.erase key) hne), fun q k => ?_, rfl, rfl⟩
      rw [owners_set]
      split_ifs with hq
      · rw [hq, howners, keys_ofRest, hn.mem_erase_iff]
        simp [Owners.keys, and_comm]
      · simp [hq]

theorem mem_keys_joined (o : Option (Owners T)) (k : Key T) :
    k ∈ (Owners.joined key o).keys ↔ k ∈ (o.map Owners.keys).getD [] ∨ k = key := by
  rcases o with _ | ⟨owner⟩ | ⟨keys⟩
  · simp [Owners.joined, Owners.keys]
  · simp [Owners.joined, Owners.keys, List.mem_insert_iff, or_comm]
  · simp [Owners.joined, Owners.keys, List.mem_insert_iff, or_comm]

theorem shaped_joined {o : Option (Owners T)} (ho : ∀ o' ∈ o, o'.Shaped)
    (hkey : key ∉ (o.map Owners.keys).getD []) : (Owners.joined key o).Shaped := by
  intro keys h
  rcases o with _ | ⟨owner⟩ | ⟨keys'⟩
  · cases h
  · obtain rfl := Owners.many.inj h
    have hne : key ∉ [owner] := hkey
    rw [List.insert_of_not_mem hne]
    exact ⟨List.nodup_cons.mpr ⟨hne, List.nodup_singleton _⟩, le_rfl⟩
  · obtain rfl := Owners.many.inj h
    obtain ⟨hn, hl⟩ := ho _ rfl keys' rfl
    have hne : key ∉ keys' := hkey
    rw [List.insert_of_not_mem hne]
    exact ⟨List.nodup_cons.mpr ⟨hne, hn⟩, Nat.le_succ_of_le hl⟩

/-- A field that is not in the bucket of a path goes into it. -/
theorem addEntry_spec {x : Index T P} (hx : Shaped x.byPath) (hkey : key ∉ owners x.byPath path) :
    Shaped (x.addEntry key path).byPath ∧
      ∀ q k, k ∈ owners (x.addEntry key path).byPath q ↔
        k ∈ owners x.byPath q ∨ q = path ∧ k = key := by
  refine ⟨hx.set (shaped_joined (fun o ho => hx path o ho) hkey), fun q k => ?_⟩
  show k ∈ owners (x.byPath.set path _) q ↔ _
  rw [owners_set]
  split_ifs with hq
  · rw [mem_keys_joined, hq, owners]
    simp
  · simp [hq]

end Buckets

/-! ### The invariant -/

/-- The index is the inverse of the fields, the fields whose paths are links are kept aside, and
the counter is exact. -/
structure Sound (abspath : V → P) (x : Index T P) (fields : OrderedDict (Key T) (V × P)) :
    Prop where
  shaped : Shaped x.byPath
  inverse : ∀ path key, key ∈ owners x.byPath path ↔ ∃ text, fields.get? key = some (text, path)
  links : ∀ key path, x.symlinkFields.get? key = some path ↔
    ∃ text, fields.get? key = some (text, path) ∧ path ≠ abspath text
  count : x.entryCount = fields.size

section Steps

variable {x : Index T P} {fields : OrderedDict (Key T) (V × P)} {key : Key T}

theorem Sound.congr (h : Sound abspath x fields) {fields' : OrderedDict (Key T) (V × P)}
    (hget : ∀ k, fields'.get? k = fields.get? k) (hsize : fields'.size = fields.size) :
    Sound abspath x fields' where
  shaped := h.shaped
  inverse path k := by rw [hget, h.inverse]
  links k path := by rw [hget, h.links]
  count := by rw [hsize, h.count]

/-- The old path of a field is the one it was recorded with, if a plain path is still one. -/
theorem Sound.oldPath? (h : Sound abspath x fields)
    (hsteady : ∀ text, fields.get? key = some (text, abspath text) →
      resolve text = some (abspath text)) :
    x.oldPath? resolve key ((fields.get? key).map Prod.fst) =
      .ok ((fields.get? key).map Prod.snd) := by
  unfold Index.oldPath?
  cases hlink : x.symlinkFields.get? key with
  | some path =>
    obtain ⟨text, hget, -⟩ := (h.links key path).mp hlink
    rw [hget]
    rfl
  | none =>
    cases hget : fields.get? key with
    | none => rfl
    | some entry =>
      obtain ⟨text, path⟩ := entry
      have hplain : path = abspath text := by
        by_contra hne
        rw [(h.links key path).mpr ⟨text, hget, hne⟩] at hlink
        cases hlink
      subst hplain
      simp only [Option.map_some]
      rw [hsteady text hget]

theorem sound_drop (h : Sound abspath x fields)
    (hsteady : ∀ text, fields.get? key = some (text, abspath text) →
      resolve text = some (abspath text)) :
    ∃ y, x.drop resolve key ((fields.get? key).map Prod.fst) = (.ok (), y) ∧
      Sound abspath y (fields.erase key) := by
  unfold Index.drop
  rw [h.oldPath? hsteady]
  have hlinks : ∀ k path, (x.symlinkFields.erase key).get? k = some path ↔
      ∃ text, (fields.erase key).get? k = some (text, path) ∧ path ≠ abspath text := by
    intro k path
    rw [OrderedDict.get?_erase, OrderedDict.get?_erase]
    split_ifs with hk
    · simp
    · exact h.links k path
  cases hget : fields.get? key with
  | none =>
    refine ⟨_, rfl, ⟨h.shaped, fun path k => ?_, hlinks, ?_⟩⟩
    · rw [h.inverse, OrderedDict.get?_erase]
      split_ifs with hk
      · rw [hk, hget]
        simp
      · rfl
    · rw [OrderedDict.size_erase_of_notMem (OrderedDict.get?_eq_none.mp hget)]
      exact h.count
  | some entry =>
    obtain ⟨text, path⟩ := entry
    obtain ⟨y, hy, hshaped, howners, hlinksEq, hcount⟩ := removeEntry_spec
      (x := { x with symlinkFields := x.symlinkFields.erase key }) h.shaped
      ((h.inverse path key).mpr ⟨text, hget⟩)
    refine ⟨y, ?_, ⟨hshaped, fun q k => ?_, fun k q => ?_, ?_⟩⟩
    · simp only [Option.map_some]
      rw [hy]
    · rw [howners]
      dsimp only
      rw [h.inverse, OrderedDict.get?_erase]
      split_ifs with hk
      · rw [hk, hget]
        simp only [Option.some.injEq, Prod.mk.injEq, exists_eq_left', and_true,
          exists_false, iff_false, not_and, not_not]
        exact fun hq => hq.symm
      · simp [hk]
    · rw [hlinksEq]
      exact hlinks k q
    · rw [hcount, h.count, ← OrderedDict.size_erase_of_mem (OrderedDict.get?_eq_some.mp hget)]
      omega

theorem sound_record (h : Sound abspath x fields) (hkey : fields.get? key = none) (text : V)
    (path : P) :
    Sound abspath (x.record abspath key text path) (fields.set key (text, path)) := by
  have hnone : ∀ path, key ∉ owners x.byPath path := by
    intro path hmem
    obtain ⟨text', hget⟩ := (h.inverse path key).mp hmem
    rw [hkey] at hget
    cases hget
  have hlinkNone : x.symlinkFields.get? key = none := by
    refine Option.eq_none_iff_forall_ne_some.mpr fun path hpath => ?_
    obtain ⟨text', hget, -⟩ := (h.links key path).mp hpath
    rw [hkey] at hget
    cases hget
  obtain ⟨hshaped, howners⟩ := addEntry_spec h.shaped (hnone path)
  have hbase : (x.record abspath key text path).byPath = (x.addEntry key path).byPath := by
    unfold Index.record
    split_ifs <;> rfl
  have hcount : (x.record abspath key text path).entryCount = x.entryCount + 1 := by
    unfold Index.record
    split_ifs <;> rfl
  refine ⟨hbase ▸ hshaped, fun q k => ?_, fun k q => ?_, ?_⟩
  · rw [hbase, howners, h.inverse, OrderedDict.get?_set]
    split_ifs with hk
    · rw [hk, hkey]
      simp [eq_comm]
    · simp [hk]
  · rw [OrderedDict.get?_set]
    have hrecord : (x.record abspath key text path).symlinkFields.get? k =
        if k = key ∧ path ≠ abspath text then some path else x.symlinkFields.get? k := by
      unfold Index.record
      by_cases hlink : path ≠ abspath text
      · simp only [and_true, hlink, ne_eq, not_false_eq_true]
        exact OrderedDict.get?_set k
      · simp only [hlink, and_false, if_false]
        rfl
    rw [hrecord]
    by_cases hk : k = key
    · subst hk
      simp only [true_and, if_true, hlinkNone]
      by_cases hlink : path ≠ abspath text
      · rw [if_pos hlink]
        constructor
        · rintro ⟨⟩
          exact ⟨text, rfl, hlink⟩
        · rintro ⟨text', ⟨⟩, -⟩
          rfl
      · rw [if_neg hlink]
        refine iff_of_false (fun hf => by cases hf) ?_
        rintro ⟨text', ⟨⟩, hne⟩
        exact hlink hne
    · simp only [hk, false_and, if_false]
      exact h.links k q
  · rw [hcount, h.count, OrderedDict.size_set_of_notMem (OrderedDict.get?_eq_none.mp hkey)]
    rfl

/-- **A field is set** to another text, or forgotten. -/
theorem sound_update (h : Sound abspath x fields)
    (hsteady : ∀ text, fields.get? key = some (text, abspath text) →
      resolve text = some (abspath text))
    {value : Option V} (hvalue : ∀ text ∈ value, resolve text ≠ none) :
    ∃ y, x.update abspath resolve key value ((fields.get? key).map Prod.fst) = (.ok (), y) ∧
      Sound abspath y (Registry.setText fields key resolve value) := by
  obtain ⟨y, hy, hsound⟩ := sound_drop h hsteady
  unfold Index.update
  cases value with
  | none => exact ⟨y, hy, hsound⟩
  | some text =>
    have hnone : (fields.erase key).get? key = none := by
      rw [OrderedDict.get?_erase, if_pos rfl]
    obtain ⟨path, hpath⟩ := Option.ne_none_iff_exists'.mp (hvalue text rfl)
    simp only [Registry.setText, hpath, hy]
    refine ⟨_, rfl, (sound_record hsound hnone text path).congr (fun k => ?_) ?_⟩
    · rw [OrderedDict.get?_set, OrderedDict.get?_set, OrderedDict.get?_erase]
      split_ifs <;> rfl
    · rw [OrderedDict.size_set_of_notMem OrderedDict.notMem_keys_erase]
      by_cases hmem : key ∈ fields.keys
      · obtain ⟨entry, hentry, rfl⟩ := List.mem_map.mp hmem
        rw [OrderedDict.size_set_of_mem hmem, OrderedDict.size_erase_of_mem (v := entry.2) hentry]
      · rw [OrderedDict.size_set_of_notMem hmem, OrderedDict.size_erase_of_notMem hmem]

/-- **The loop of a query** brings the fields that it goes over up to date. -/
theorem sound_refresh (resolve : V → Option P) (field : Key T → Option V) (l : List (Key T × P)) :
    ∀ {x : Index T P} {fields : OrderedDict (Key T) (V × P)}, Sound abspath x fields →
      (l.map Prod.fst).Nodup →
      (∀ key, field key = (fields.get? key).map Prod.fst) →
      (∀ key text, fields.get? key = some (text, abspath text) →
        resolve text = some (abspath text)) →
      (∀ e ∈ l, ∃ text, fields.get? e.1 = some (text, e.2) ∧ resolve text ≠ none) →
      ∃ y fields', x.refresh abspath resolve field l = (.ok (), y) ∧ Sound abspath y fields' ∧
        fields'.size = fields.size ∧
        (∀ key, key ∉ l.map Prod.fst → fields'.get? key = fields.get? key) ∧
        ∀ key ∈ l.map Prod.fst, ∃ text path, (fields.get? key).map Prod.fst = some text ∧
          resolve text = some path ∧ fields'.get? key = some (text, path) := by
  induction l with
  | nil => exact fun h _ _ _ _ => ⟨_, _, rfl, h, rfl, fun _ _ => rfl, nofun⟩
  | cons e l ih =>
    intro x fields h hn hfield hsteady hl
    obtain ⟨key, path⟩ := e
    obtain ⟨text, hget, hresolves⟩ := hl (key, path) List.mem_cons_self
    obtain ⟨now, hnow⟩ := Option.ne_none_iff_exists'.mp hresolves
    obtain ⟨hnot, hn'⟩ := List.nodup_cons.mp hn
    have hl' : ∀ e ∈ l, ∃ text, fields.get? e.1 = some (text, e.2) ∧ resolve text ≠ none :=
      fun e he => hl e (List.mem_cons_of_mem _ he)
    have hkey : field key = some text := by rw [hfield, hget]; rfl
    have hfst : (fields.get? key).map Prod.fst = some text := by rw [hget]; rfl
    unfold Index.refresh
    simp only [hkey, hnow]
    by_cases hchanged : now ≠ path
    · have hvalue : ∀ t ∈ some text, resolve t ≠ none := fun _ ht =>
        Option.mem_some.mp ht ▸ hresolves
      obtain ⟨y, hy, hsound⟩ := sound_update h (hsteady key) hvalue
      rw [hfst] at hy
      simp only [if_pos hchanged, hy]
      have hset : ∀ k, (Registry.setText fields key resolve (some text)).get? k =
          if k = key then some (text, now) else fields.get? k := fun k => by
        simp only [Registry.setText, hnow]
        exact OrderedDict.get?_set k
      obtain ⟨z, fields', hz, hsound', hsize, hout, hin⟩ := ih hsound hn'
        (fun k => by
          rw [hset, hfield]
          split_ifs with hk
          · rw [hk, hget]
            rfl
          · rfl)
        (fun k text' hk => by
          rw [hset] at hk
          split_ifs at hk with hkk
          · obtain ⟨rfl, hpath⟩ := Prod.mk.inj (Option.some.inj hk)
            rw [hnow, hpath]
          · exact hsteady k text' hk)
        (fun e he => by
          obtain ⟨text', ht, hr⟩ := hl' e he
          have hne : e.1 ≠ key := fun hk => hnot (List.mem_map.mpr ⟨e, he, hk⟩)
          exact ⟨text', by rw [hset, if_neg hne, ht], hr⟩)
      refine ⟨z, fields', hz, hsound', ?_, fun k hk => ?_, fun k hk => ?_⟩
      · rw [hsize]
        simp only [Registry.setText, hnow]
        exact OrderedDict.size_set_of_mem
          (List.mem_map_of_mem (f := Prod.fst) (OrderedDict.get?_eq_some.mp hget))
      · rw [List.map_cons, List.mem_cons, not_or] at hk
        rw [hout k hk.2, hset, if_neg hk.1]
      · rcases eq_or_ne k key with rfl | hkk
        · exact ⟨text, now, hfst, hnow, by rw [hout k hnot, hset, if_pos rfl]⟩
        · obtain ⟨text', path', ht, hr, ht'⟩ := hin k ((List.mem_cons.mp hk).resolve_left hkk)
          rw [hset, if_neg hkk] at ht
          exact ⟨text', path', ht, hr, ht'⟩
    · have hsame : now = path := not_not.mp hchanged
      simp only [if_neg hchanged]
      obtain ⟨z, fields', hz, hsound', hsize, hout, hin⟩ := ih h hn' hfield hsteady hl'
      refine ⟨z, fields', hz, hsound', hsize, fun k hk => ?_, fun k hk => ?_⟩
      · rw [List.map_cons, List.mem_cons, not_or] at hk
        exact hout k hk.2
      · rcases eq_or_ne k key with rfl | hkk
        · exact ⟨text, path, hfst, hsame ▸ hnow, by rw [hout k hnot, hget]⟩
        · exact hin k ((List.mem_cons.mp hk).resolve_left hkk)

end Steps

/-! ### Runs -/

section Runs

variable [DecidableEq V] {r : Registry T V P}

theorem sound_setField (h : Sound abspath r.index r.fields) {key : Key T} {value : Option V}
    (hsteady : Steady abspath r (.setField key value resolve)) :
    (r.setField abspath key value resolve).1 = .ok () ∧
      Sound abspath (r.setField abspath key value resolve).2.index
        (r.setField abspath key value resolve).2.fields := by
  unfold Registry.setField
  split_ifs
  · exact ⟨rfl, h⟩
  · rename_i hne
    obtain ⟨y, hy, hsound⟩ := sound_update h hsteady.1 (hsteady.2 hne)
    rw [Registry.text?, hy]
    exact ⟨rfl, hsound⟩

omit [DecidableEq V] in
/-- A query answers for the resolution of its moment. -/
theorem sound_query (h : Sound abspath r.index r.fields) {owner : T} {paths : List P}
    (hsteady : Steady abspath r (.query owner paths resolve)) :
    (∃ answer, (r.query abspath owner paths resolve).1 = .ok answer ∧
      (answer = true ↔ ∃ key text path, key.1 ≠ owner ∧ r.text? key = some text ∧
        resolve text = some path ∧ path ∈ paths)) ∧
      Sound abspath (r.query abspath owner paths resolve).2.index
        (r.query abspath owner paths resolve).2.fields := by
  obtain ⟨y, fields', hy, hsound, hsize, hout, hin⟩ := sound_refresh resolve r.text?
    r.index.symlinkFields.entries h r.index.symlinkFields.nodup (fun _ => rfl)
    (fun key text hget => (hsteady key text _ hget).2 rfl)
    fun e he => by
      obtain ⟨text, hget, -⟩ := (h.links e.1 e.2).mp (OrderedDict.get?_eq_some.mpr he)
      exact ⟨text, hget, (hsteady _ _ _ hget).1⟩
  have hnow : ∀ key, (r.fields.map fun entry => (entry.1, (resolve entry.1).getD entry.2)).get? key =
      fields'.get? key := by
    intro key
    rw [OrderedDict.get?_map]
    by_cases hmem : key ∈ r.index.symlinkFields.entries.map Prod.fst
    · obtain ⟨text, path, hfst, hpath, hget'⟩ := hin key hmem
      obtain ⟨⟨text', old⟩, hget, rfl⟩ := Option.map_eq_some_iff.mp hfst
      rw [hget, hget', Option.map_some]
      simp only [hpath, Option.getD_some]
    · rw [hout key hmem]
      cases hget : r.fields.get? key with
      | none => rfl
      | some entry =>
        obtain ⟨text, path⟩ := entry
        -- A path that is not kept aside was its own resolution, and still is.
        have hplain : path = abspath text := by
          by_contra hne
          exact hmem (List.mem_map_of_mem (f := Prod.fst)
            (OrderedDict.get?_eq_some.mp ((h.links key path).mpr ⟨text, hget, hne⟩)))
        subst hplain
        rw [Option.map_some, (hsteady key text _ hget).2 rfl, Option.getD_some]
  have hfinal := hsound.congr hnow ((OrderedDict.size_map _).trans hsize.symm)
  unfold Registry.query Index.conflicts
  rw [hy]
  refine ⟨⟨_, rfl, ?_⟩, hfinal⟩
  have hmem : ∀ path key, key ∈ owners y.byPath path ↔
      ∃ text, r.text? key = some text ∧ resolve text = some path := by
    intro path key
    rw [hfinal.inverse, OrderedDict.get?_map, Registry.text?]
    cases hget : r.fields.get? key with
    | none => simp
    | some entry =>
      obtain ⟨now, hnow⟩ := Option.ne_none_iff_exists'.mp (hsteady key entry.1 entry.2 hget).1
      simp [hnow]
  have howners : ∀ path, ((y.byPath.get? path).any fun o => o.keys.any fun key => key.1 ≠ owner) =
      (owners y.byPath path).any fun key => key.1 ≠ owner := by
    intro path
    unfold owners
    cases y.byPath.get? path <;> rfl
  simp only [howners, List.any_eq_true, decide_eq_true_eq]
  constructor
  · rintro ⟨path, hpath, key, hkey, hne⟩
    obtain ⟨text, htext, hresolve⟩ := (hmem path key).mp hkey
    exact ⟨key, text, path, hne, htext, hresolve, hpath⟩
  · rintro ⟨key, text, path, hne, htext, hresolve, hpath⟩
    exact ⟨path, hpath, key, (hmem _ key).mpr ⟨text, htext, hresolve⟩, hne⟩

omit [DecidableEq V] in
theorem sound_empty : Sound abspath ({} : Registry T V P).index ({} : Registry T V P).fields where
  shaped path o ho := by cases ho
  inverse path key := iff_of_false List.not_mem_nil (by rintro ⟨text, ⟨⟩⟩)
  links key path := iff_of_false (fun h => by cases h) (by rintro ⟨text, ⟨⟩, -⟩)
  count := rfl

theorem sound_of_reachable (h : (registry abspath).Reachable (Steady abspath) r) :
    Sound abspath r.index r.fields := by
  refine h.invariant (I := fun r => Sound abspath r.index r.fields) ?_ ?_
  · rintro r rfl
    exact sound_empty
  · rintro r (⟨key, value, resolve⟩ | ⟨owner, paths, resolve⟩) t hs hg hst
    · cases hst
      exact (sound_setField hs hg).2
    · cases hst
      exact (sound_query hs hg).2

/-- **The index follows the fields.** In every run in which a path that last resolved to itself
still does whenever its field is set and whenever there is a query, and in which the other paths
that a call looks at resolve to something: the index is the exact inverse of the fields, with the
paths to which they last resolved, and the counter is the number of fields; setting a field raises
nothing; and a query says whether a field of another task resolves, at that moment, to one of the
paths.

The invariant says that a field whose path was a link is kept aside with the path of its entry. The
entry of any other field stands under the text's own absolute path, and that is where the next call
looks for it if the text still resolves to itself. -/
theorem index_of_reachable (h : (registry abspath).Reachable (Steady abspath) r) :
    (∀ path key, key ∈ owners r.index.byPath path ↔
        ∃ text, r.fields.get? key = some (text, path)) ∧
      r.index.entryCount = r.fields.size ∧
      (∀ key value resolve, Steady abspath r (.setField key value resolve) →
        (r.setField abspath key value resolve).1 = .ok ()) ∧
      ∀ owner paths resolve, Steady abspath r (.query owner paths resolve) →
        ∃ answer, (r.query abspath owner paths resolve).1 = .ok answer ∧
          (answer = true ↔ ∃ key text path, key.1 ≠ owner ∧ r.text? key = some text ∧
            resolve text = some path ∧ path ∈ paths) := by
  have hs := sound_of_reachable h
  exact ⟨hs.inverse, hs.count, fun _ _ _ hg => (sound_setField hs hg).1,
    fun _ _ _ hg => (sound_query hs hg).1⟩

end Runs

/-- The link `1` leads to `7` when it is recorded and to `8` when another task asks. -/
theorem index_of_reachable_link : ∃ r : Registry ℕ ℕ ℕ,
    (registry id).Reachable (Steady id) r ∧ r.text? (0, .jobPath) = some 1 ∧
      ∃ answer, (r.query id 1 [8] fun _ => some 8).1 = .ok answer ∧ answer = true := by
  let r : Registry ℕ ℕ ℕ :=
    (({} : Registry ℕ ℕ ℕ).setField id (0, .jobPath) (some 1) fun _ => some 7).2
  have hr : (registry id).Reachable (Steady id) r :=
    .step (a := .setField (0, .jobPath) (some 1) fun _ => some 7) (.init rfl)
      ⟨fun text h => (by cases h), fun _ _ _ h => (by cases h)⟩ rfl
  have hsteady : Steady id r (.query 1 [8] fun _ => some 8) := by
    intro key text path h
    have hmem : (key, text, path) ∈ [((0, ArtifactField.jobPath), 1, 7)] :=
      OrderedDict.get?_eq_some.mp h
    rw [List.mem_singleton] at hmem
    cases hmem
    exact ⟨by simp, fun h => absurd h (by decide)⟩
  obtain ⟨answer, hanswer, hiff⟩ := (index_of_reachable hr).2.2.2 1 [8] (fun _ => some 8) hsteady
  exact ⟨r, hr, rfl, answer, hanswer,
    hiff.mpr ⟨(0, .jobPath), 1, 8, by decide, rfl, rfl, by decide⟩⟩

/-- The plain path `1` is recorded and becomes a link to `7`: forgetting the field raises, and a
query for `7` does not see the field. A path that does not resolve makes setting its field raise. -/
theorem index_misses_new_link : ∃ r : Registry ℕ ℕ ℕ,
    (registry id).Reachable StepSystem.Free r ∧ r.text? (0, .jobPath) = some 1 ∧
      (r.setField id (0, .jobPath) none fun _ => some 7).1 = .error .keyError ∧
      (r.query id 1 [7] fun _ => some 7).1 = .ok false ∧
      (r.setField id (0, .jobPath) (some 2) fun _ => none).1 = .error .resolution :=
  ⟨_, .step (a := .setField (0, .jobPath) (some 1) some) (.init rfl) trivial rfl, rfl, rfl, rfl, rfl⟩

end Takler.Artifact
