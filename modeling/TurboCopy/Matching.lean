import Mathlib.Data.List.ReduceOption
import TurboCopy.DestinationIndex

/-!
# Sequences of lookups in a destination index

The two maps of an index hold the same files through any sequence of lookups. A file that is
returned leaves both maps, so that no later lookup returns it.
-/

namespace TurboCopy
namespace DestinationIndex

variable {idx idx' : DestinationIndex} {item : DriveFile} {items : List DriveFile} {name : String}

/-- No name keeps an empty list, the files under a name are listed files with that name, and a
file under a key carries the key and is also under its name. -/
structure Consistent (items : List DriveFile) (idx : DestinationIndex) : Prop where
  nonempty : ∀ name, AList.lookup name idx.byName ≠ some []
  listed : ∀ name, (idx.named name).Sublist items
  file : ∀ name, ∀ item ∈ idx.named name, item.isFolder = false ∧ item.name = name
  keyed : ∀ key item, AList.lookup key idx.appProps = some item →
    item.sourceKey = some key ∧ item ∈ idx.named item.name

/-! ## Building the index -/

theorem named_add (idx : DestinationIndex) (h : item.isFolder = false) (name : String) :
    (idx.add item).named name =
      if name = item.name then idx.named name ++ [item] else idx.named name := by
  unfold add named
  rw [h]
  simp only [Bool.false_eq_true, if_false]
  split_ifs with hname
  · subst hname
    rw [AList.lookup_insert]
    rfl
  · rw [AList.lookup_insert_ne hname]

theorem Consistent.add (h : Consistent items idx) (item : DriveFile) :
    Consistent (items ++ [item]) (idx.add item) := by
  have hmore : ∀ name, (idx.named name).Sublist (items ++ [item]) := fun name =>
    (h.listed name).trans (List.sublist_append_left items [item])
  cases hfolder : item.isFolder with
  | true =>
    rw [add_folder idx hfolder]
    exact ⟨h.nonempty, hmore, h.file, h.keyed⟩
  | false =>
    constructor
    · intro name hempty
      have hnamed : (idx.add item).named name = [] := by
        unfold named
        rw [hempty]
        rfl
      by_cases hname : name = item.name
      · rw [named_add idx hfolder, if_pos hname] at hnamed
        exact absurd hnamed (by simp)
      · apply h.nonempty name
        unfold DestinationIndex.add at hempty
        rwa [hfolder, if_neg Bool.false_ne_true, AList.lookup_insert_ne hname] at hempty
    · intro name
      rw [named_add idx hfolder]
      split_ifs
      · exact (h.listed name).append (List.Sublist.refl [item])
      · exact hmore name
    · intro name f hf
      rw [named_add idx hfolder] at hf
      split_ifs at hf with hname
      · rcases List.mem_append.mp hf with hf | hf
        · exact h.file name f hf
        · rw [List.mem_singleton.mp hf]
          exact ⟨hfolder, hname.symm⟩
      · exact h.file name f hf
    · intro key f hf
      rw [add_appProps] at hf
      rw [named_add idx hfolder]
      split_ifs at hf with hkey
      · obtain rfl := Option.some.inj hf
        exact ⟨hkey.2, by simp⟩
      · obtain ⟨hcarries, hunder⟩ := h.keyed key f hf
        refine ⟨hcarries, ?_⟩
        split_ifs
        · exact List.mem_append_left [item] hunder
        · exact hunder

theorem consistent_build (items : List DriveFile) : Consistent items (build items) := by
  induction items using List.reverseRecOn with
  | nil =>
    constructor
    · intro name h
      exact nomatch h
    · intro name
      exact List.Sublist.refl []
    · intro name item h
      exact nomatch h
    · intro key item h
      exact nomatch h
  | append_singleton items item ih =>
    unfold build at *
    rw [List.foldl_append]
    exact ih.add item

/-! ## Taking a file out -/

theorem named_removeFromName (idx : DestinationIndex) (item : DriveFile) (name : String) :
    (idx.removeFromName item).named name =
      if name = item.name then (idx.named name).erase item else idx.named name := by
  unfold removeFromName
  cases hcands : AList.lookup item.name idx.byName with
  | none =>
    split_ifs with hname
    · subst hname
      simp [named, hcands]
    · rfl
  | some cands =>
    have hnamed : idx.named item.name = cands := by simp [named, hcands]
    by_cases hname : name = item.name
    · subst hname
      rw [if_pos rfl, hnamed]
      by_cases hmem : item ∈ cands
      · simp only [if_pos hmem]
        by_cases hrest : cands.erase item = []
        · simp [named, hrest]
        · simp [named, hrest]
      · simp only [if_neg hmem, hnamed, List.erase_of_not_mem hmem]
    · rw [if_neg hname]
      dsimp only
      split_ifs <;> simp [named, AList.lookup_erase_ne hname, AList.lookup_insert_ne hname]

theorem removeFromName_nonempty (h : ∀ name, AList.lookup name idx.byName ≠ some [])
    (item : DriveFile) (name : String) :
    AList.lookup name (idx.removeFromName item).byName ≠ some [] := by
  unfold removeFromName
  split
  · exact h name
  · rename_i cands hcands
    by_cases hmem : item ∈ cands
    · simp only [if_pos hmem]
      by_cases hname : name = item.name
      · subst hname
        split_ifs with hrest
        · simp
        · simpa using hrest
      · split_ifs
        · rw [AList.lookup_erase_ne hname]
          exact h name
        · rw [AList.lookup_insert_ne hname]
          exact h name
    · simp only [if_neg hmem]
      exact h name

/-- The file, and nothing else, is taken from both maps. -/
structure Takes (idx : DestinationIndex) (item : DriveFile) (idx' : DestinationIndex) : Prop where
  here : item ∈ idx.named item.name
  gone : item ∉ idx'.named item.name
  named : ∀ name, idx'.named name =
    if name = item.name then (idx.named name).erase item else idx.named name
  keyed : ∀ key, AList.lookup key idx'.appProps =
    if AList.lookup key idx.appProps = some item then none else AList.lookup key idx.appProps

theorem Takes.subset {f : DriveFile} (h : Takes idx item idx') (hf : f ∈ idx'.named name) :
    f ∈ idx.named name := by
  rw [h.named name] at hf
  split_ifs at hf
  · exact List.mem_of_mem_erase hf
  · exact hf

theorem Takes.other {f : DriveFile} (h : Takes idx item idx') (hne : f ≠ item)
    (hf : f ∈ idx.named name) : f ∈ idx'.named name := by
  rw [h.named name]
  split_ifs
  · exact (List.mem_erase_of_ne hne).mpr hf
  · exact hf

theorem Consistent.takes (h : Consistent items idx) (ht : Takes idx item idx')
    (hne : ∀ name, AList.lookup name idx'.byName ≠ some []) : Consistent items idx' := by
  constructor
  · exact hne
  · intro name
    rw [ht.named name]
    split_ifs
    · exact List.erase_sublist.trans (h.listed name)
    · exact h.listed name
  · intro name f hf
    exact h.file name f (ht.subset hf)
  · intro key f hf
    rw [ht.keyed key] at hf
    split_ifs at hf with hitem
    obtain ⟨hcarries, hunder⟩ := h.keyed key f hf
    have hother : f ≠ item := fun heq => hitem (heq ▸ hf)
    exact ⟨hcarries, ht.other hother hunder⟩

/-- Removing a listed file from its name and from every key it has. -/
theorem Consistent.takes_of (h : Consistent items idx) (hnodup : items.Nodup)
    (hhere : item ∈ idx.named item.name)
    (hnamed : ∀ name, idx'.named name = (idx.removeFromName item).named name)
    (hkeyed : ∀ key, AList.lookup key idx'.appProps =
      if AList.lookup key idx.appProps = some item then none
      else AList.lookup key idx.appProps) : Takes idx item idx' := by
  have herase : ∀ name, idx'.named name =
      if name = item.name then (idx.named name).erase item else idx.named name := fun name =>
    (hnamed name).trans (named_removeFromName idx item name)
  refine ⟨hhere, ?_, herase, hkeyed⟩
  rw [herase, if_pos rfl]
  exact ((h.listed item.name).nodup hnodup).not_mem_erase

/-! ## One lookup -/

inductive Lookup
  | popByAppProp (effectiveId : String)
  | popMatch (source : DriveFile) (mode : VerifyMode) (allowNameOnly : Bool) (effectiveId : String)

def Lookup.run : Lookup → DestinationIndex → Option DriveFile × DestinationIndex
  | .popByAppProp eff, idx => idx.popByAppProp eff
  | .popMatch src mode allow eff, idx => idx.popMatch src mode allow eff

/-- The rule of a mode for files of one name. -/
def Rule (mode : VerifyMode) (allowNameOnly : Bool) (source item : DriveFile) : Prop :=
  match mode with
  | .nameOnly => allowNameOnly = true
  | .checksum => sameMd5 source item = true
  | .nameSize => sameMd5 source item = true ∨ sameSize source item = true

/-- What a lookup may return: a file with the effective id, or one with the name of the source
that satisfies the rule. -/
def Lookup.Fits : Lookup → DriveFile → Prop
  | .popByAppProp eff, item => item.sourceKey = some eff
  | .popMatch src mode allow eff, item =>
    item.sourceKey = some (if eff = "" then src.id else eff) ∨
      item.name = src.name ∧ Rule mode allow src item

theorem nameMatch_some {mode : VerifyMode} {allow : Bool} {src : DriveFile}
    {cands : List DriveFile} (h : nameMatch mode allow src cands = some item) :
    item ∈ cands ∧ Rule mode allow src item := by
  cases mode with
  | nameOnly =>
    simp only [nameMatch] at h
    split_ifs at h with hallow
    exact ⟨List.mem_of_mem_head? h, hallow⟩
  | checksum => exact ⟨List.mem_of_find?_eq_some h, List.find?_some h⟩
  | nameSize =>
    simp only [nameMatch] at h
    cases hmd5 : cands.find? (sameMd5 src) with
    | some f =>
      rw [hmd5] at h
      obtain rfl := Option.some.inj h
      exact ⟨List.mem_of_find?_eq_some hmd5, .inl (List.find?_some hmd5)⟩
    | none =>
      rw [hmd5] at h
      change (if src.size.isSome then cands.find? (sameSize src) else none) = some item at h
      split_ifs at h
      exact ⟨List.mem_of_find?_eq_some h, .inr (List.find?_some h)⟩

theorem Consistent.popByAppProp {eff : String} (h : Consistent items idx) (hnodup : items.Nodup)
    (hpop : idx.popByAppProp eff = (some item, idx')) :
    item.sourceKey = some eff ∧ Takes idx item idx' ∧ Consistent items idx' := by
  obtain ⟨hlookup, rfl⟩ := popByAppProp_some hpop
  obtain ⟨hcarries, hunder⟩ := h.keyed eff item hlookup
  have htakes : Takes idx item
      ({ idx with appProps := AList.erase eff idx.appProps }.removeFromName item) := by
    apply h.takes_of hnodup hunder
    · intro name
      rw [named_removeFromName, named_removeFromName]
      rfl
    · intro key
      rw [removeFromName_appProps]
      by_cases hkey : key = eff
      · subst hkey
        rw [if_pos hlookup]
        exact AList.lookup_erase key idx.appProps
      · have hother : AList.lookup key idx.appProps ≠ some item := by
          intro hkeyed
          have hcarried := (h.keyed key item hkeyed).1
          exact hkey (Option.some.inj (hcarried.symm.trans hcarries))
        rw [if_neg hother]
        exact AList.lookup_erase_ne hkey
  exact ⟨hcarries, htakes, h.takes htakes
    (@removeFromName_nonempty { idx with appProps := AList.erase eff idx.appProps }
      h.nonempty item)⟩

/-- A lookup that returns a file takes it out. -/
theorem Consistent.run_some (h : Consistent items idx) (hnodup : items.Nodup) (l : Lookup)
    (hrun : l.run idx = (some item, idx')) :
    l.Fits item ∧ Takes idx item idx' ∧ Consistent items idx' := by
  cases l with
  | popByAppProp eff => exact h.popByAppProp hnodup hrun
  | popMatch src mode allow eff =>
    rcases popMatch_some hrun with hprop | ⟨-, hrule, rfl⟩
    · obtain ⟨hcarries, hrest⟩ := h.popByAppProp hnodup hprop
      exact ⟨.inl hcarries, hrest⟩
    · obtain ⟨hmem, hmode⟩ := nameMatch_some hrule
      have hname : item.name = src.name := (h.file src.name item hmem).2
      have hkeyed : ∀ key, AList.lookup key
          (if idx.appProps.hasValue item then idx.appProps.eraseValue item else idx.appProps) =
          if AList.lookup key idx.appProps = some item then none
          else AList.lookup key idx.appProps := by
        intro key
        by_cases hvalue : idx.appProps.hasValue item = true
        · rw [if_pos hvalue]
          exact Dict.lookup_eraseValue idx.appProps item key
        · have hitem : AList.lookup key idx.appProps ≠ some item := fun hitem =>
            hvalue ((Dict.hasValue_iff idx.appProps item).mpr ⟨key, hitem⟩)
          rw [if_neg hvalue, if_neg hitem]
      have htakes : Takes idx item { idx.removeFromName item with
          appProps := if idx.appProps.hasValue item then idx.appProps.eraseValue item
            else idx.appProps } :=
        h.takes_of hnodup (hname ▸ hmem) (fun _ => rfl) hkeyed
      exact ⟨.inr ⟨hname, hmode⟩, htakes,
        h.takes htakes (removeFromName_nonempty h.nonempty item)⟩

/-- A lookup that returns nothing changes nothing. -/
theorem run_none (l : Lookup) (h : (l.run idx).1 = none) : (l.run idx).2 = idx := by
  cases l with
  | popByAppProp eff =>
    simp only [Lookup.run, DestinationIndex.popByAppProp] at h ⊢
    split_ifs at h ⊢
    · rfl
    · split at h
      · rfl
      · cases h
  | popMatch src mode allow eff =>
    obtain ⟨hprop, hrule⟩ := popMatch_none h
    simp only [Lookup.run, DestinationIndex.popMatch]
    split
    · rename_i f idx₁ hpop
      rw [hpop] at hprop
      cases hprop
    · rw [hrule]

/-! ## Sequences of lookups -/

/-- The results of the lookups, and the index they leave. -/
def lookups (idx : DestinationIndex) : List Lookup → List (Option DriveFile) × DestinationIndex
  | [] => ([], idx)
  | l :: rest =>
    let first := l.run idx
    let others := lookups first.2 rest
    (first.1 :: others.1, others.2)

/-- The files that the lookups return are different files of the index. -/
theorem Consistent.lookups (hnodup : items.Nodup) (calls : List Lookup) :
    ∀ {idx : DestinationIndex}, Consistent items idx →
      Consistent items (idx.lookups calls).2 ∧
      (idx.lookups calls).1.reduceOption.Nodup ∧
      ∀ item ∈ (idx.lookups calls).1.reduceOption, item ∈ idx.named item.name := by
  induction calls with
  | nil =>
    intro idx h
    exact ⟨h, List.nodup_nil, fun item hitem => nomatch hitem⟩
  | cons l rest ih =>
    intro idx h
    unfold DestinationIndex.lookups
    rcases hrun : l.run idx with ⟨_ | first, idx'⟩
    · have hsame : idx' = idx := by
        have hnone := @run_none idx l (by rw [hrun])
        rwa [hrun] at hnone
      subst hsame
      simpa [List.reduceOption] using ih h
    · obtain ⟨-, htakes, hnext⟩ := h.run_some hnodup l hrun
      obtain ⟨hend, hdistinct, hfrom⟩ := ih hnext
      refine ⟨hend, ?_, ?_⟩
      · have hfresh : first ∉ (idx'.lookups rest).1.reduceOption := fun hagain =>
          htakes.gone (hfrom first hagain)
        simpa [List.reduceOption_cons_of_some] using ⟨hfresh, hdistinct⟩
      · intro item hitem
        rw [List.reduceOption_cons_of_some, List.mem_cons] at hitem
        rcases hitem with rfl | hitem
        · exact htakes.here
        · exact htakes.subset (hfrom item hitem)

/-- Any sequence of lookups in the index of a folder returns different files, none of them a
folder, and keeps the maps consistent. One more lookup returns a file that fits, and takes it
out, or returns nothing and changes nothing. -/
theorem lookups_sound (items : List DriveFile) (hids : (items.map DriveFile.id).Nodup)
    (calls : List Lookup) :
    ((((build items).lookups calls).1.reduceOption).map DriveFile.id).Nodup ∧
    (∀ item ∈ ((build items).lookups calls).1.reduceOption,
      item ∈ items ∧ item.isFolder = false) ∧
    Consistent items ((build items).lookups calls).2 ∧
    ∀ l : Lookup, match l.run ((build items).lookups calls).2 with
      | (some item, idx') => l.Fits item ∧ Takes ((build items).lookups calls).2 item idx'
      | (none, idx') => idx' = ((build items).lookups calls).2 := by
  have hnodup : items.Nodup := hids.of_map
  obtain ⟨hend, hdistinct, hfrom⟩ := (consistent_build items).lookups hnodup calls
  have hlisted : ∀ item ∈ ((build items).lookups calls).1.reduceOption,
      item ∈ items ∧ item.isFolder = false := by
    intro item hitem
    have hnamed := hfrom item hitem
    exact ⟨((consistent_build items).listed item.name).subset hnamed,
      ((consistent_build items).file item.name item hnamed).1⟩
  refine ⟨?_, hlisted, hend, ?_⟩
  · apply List.Nodup.map_on _ hdistinct
    intro a ha b hb
    exact List.inj_on_of_nodup_map hids (hlisted a ha).1 (hlisted b hb).1
  · intro l
    rcases hrun : l.run ((build items).lookups calls).2 with ⟨_ | item, idx'⟩
    · have hnone := @run_none ((build items).lookups calls).2 l (by rw [hrun])
      rwa [hrun] at hnone
    · obtain ⟨hfits, htakes, -⟩ := hend.run_some hnodup l hrun
      exact ⟨hfits, htakes⟩

/-- Two files of one key, and a folder. -/
def twins : List DriveFile :=
  [{ id := "a", name := "x", mimeType := "text/plain",
     appProperties := AList.insert "source_file_id" "s" ∅ },
    { id := "b", name := "x", mimeType := "text/plain",
      appProperties := AList.insert "source_file_id" "s" ∅ },
    { id := "c", name := "x", mimeType := folderMime }]

/-- A lookup by the key, or else by the name. -/
def twinLookup : Lookup :=
  .popMatch { id := "s", name := "x", mimeType := "text/plain" } .nameOnly true ""

example : (((build twins).lookups (List.replicate 3 twinLookup)).1.map
    fun r => r.map DriveFile.id) = [some "b", some "a", none] := by decide +kernel

theorem lookups_sound_twins :
    (((build twins).lookups [twinLookup, twinLookup, twinLookup]).1.reduceOption.map
      DriveFile.id).Nodup :=
  (lookups_sound twins (by decide) _).1

end DestinationIndex
end TurboCopy
