import TurboCopy.Models

/-!
# The index of a destination folder

`DestinationIndex` of `copier.py`: the files already in a folder, by the source key
they carry and by name. Both lookups consume the file they find.
-/

namespace TurboCopy

/-- `app_properties.get("source_shortcut_id") or app_properties.get("source_file_id")`,
when it is not empty. -/
def DriveFile.sourceKey (f : DriveFile) : Option String :=
  (truthy (AList.lookup "source_shortcut_id" f.appProperties)).orElse fun _ =>
    truthy (AList.lookup "source_file_id" f.appProperties)

structure DestinationIndex where
  appProps : Dict DriveFile := ∅
  byName : Dict (List DriveFile) := ∅

namespace DestinationIndex

/-- The files under a name. -/
def named (idx : DestinationIndex) (name : String) : List DriveFile :=
  (AList.lookup name idx.byName).getD []

def add (idx : DestinationIndex) (item : DriveFile) : DestinationIndex :=
  if item.isFolder then idx
  else
    { appProps := match item.sourceKey with
        | some key => AList.insert key item idx.appProps
        | none => idx.appProps
      byName := AList.insert item.name (idx.named item.name ++ [item]) idx.byName }

def build (items : List DriveFile) : DestinationIndex := items.foldl add {}

def removeFromName (idx : DestinationIndex) (item : DriveFile) : DestinationIndex :=
  match AList.lookup item.name idx.byName with
  | none => idx
  | some cands =>
    if item ∈ cands then
      let rest := cands.erase item
      { idx with byName :=
          if rest.isEmpty then AList.erase item.name idx.byName
          else AList.insert item.name rest idx.byName }
    else idx

/-- The match by source key alone. -/
def popByAppProp (idx : DestinationIndex) (effectiveId : String) :
    Option DriveFile × DestinationIndex :=
  if effectiveId = "" then (none, idx)
  else
    match AList.lookup effectiveId idx.appProps with
    | none => (none, idx)
    | some item =>
      (some item, { idx with appProps := AList.erase effectiveId idx.appProps }.removeFromName item)

def sameSize (source item : DriveFile) : Bool :=
  source.size.isSome && item.size.isSome && source.size = item.size

def sameMd5 (source item : DriveFile) : Bool :=
  (truthy source.md5).isSome && (truthy item.md5).isSome && source.md5 = item.md5

/-- The candidate the mode's rule picks among the files with the source's name. -/
def nameMatch (mode : VerifyMode) (allowNameOnly : Bool) (source : DriveFile)
    (cands : List DriveFile) : Option DriveFile :=
  match mode with
  | .nameOnly => if allowNameOnly then cands.head? else none
  | .checksum => cands.find? (sameMd5 source)
  | .nameSize => (cands.find? (sameMd5 source)).orElse fun _ =>
      if source.size.isSome then cands.find? (sameSize source) else none

/-- Find and consume a destination file that matches `source`. -/
def popMatch (idx : DestinationIndex) (source : DriveFile) (mode : VerifyMode)
    (allowNameOnly : Bool) (effectiveId : String) : Option DriveFile × DestinationIndex :=
  let eff := if effectiveId = "" then source.id else effectiveId
  match idx.popByAppProp eff with
  | (some item, idx') => (some item, idx')
  | (none, _) =>
    match nameMatch mode allowNameOnly source (idx.named source.name) with
    | none => (none, idx)
    | some item =>
      let idx' := idx.removeFromName item
      (some item, if idx'.appProps.hasValue item then
        { idx' with appProps := idx'.appProps.eraseValue item } else idx')

/-! ## What a lookup takes -/

theorem removeFromName_appProps (idx : DestinationIndex) (item : DriveFile) :
    (idx.removeFromName item).appProps = idx.appProps := by
  unfold removeFromName
  split
  · rfl
  · split_ifs <;> rfl

variable {idx idx' : DestinationIndex} {eff : String} {item src : DriveFile} {mode : VerifyMode}
  {allow : Bool} {items : List DriveFile}

theorem popByAppProp_some (h : idx.popByAppProp eff = (some item, idx')) :
    AList.lookup eff idx.appProps = some item ∧
      idx' = { idx with appProps := AList.erase eff idx.appProps }.removeFromName item := by
  unfold popByAppProp at h
  split_ifs at h
  · exact nomatch h
  · split at h
    · exact nomatch h
    · rename_i it hit
      simp only [Prod.mk.injEq, Option.some.injEq] at h
      obtain ⟨rfl, rfl⟩ := h
      exact ⟨hit, rfl⟩

theorem popByAppProp_none (he : eff ≠ "") (h : (idx.popByAppProp eff).1 = none) :
    AList.lookup eff idx.appProps = none := by
  unfold popByAppProp at h
  rw [if_neg he] at h
  split at h
  · assumption
  · exact nomatch h

/-- A lookup by key takes the file from that key only. -/
theorem lookup_popByAppProp (h : idx.popByAppProp eff = (some item, idx')) (k : String) :
    AList.lookup k idx'.appProps = AList.lookup k idx.appProps ∨
      AList.lookup k idx'.appProps = none ∧ AList.lookup k idx.appProps = some item := by
  obtain ⟨hl, rfl⟩ := popByAppProp_some h
  rw [removeFromName_appProps]
  by_cases hk : k = eff
  · subst hk
    exact .inr ⟨AList.lookup_erase k idx.appProps, hl⟩
  · exact .inl (AList.lookup_erase_ne hk)

/-- A match is found by the key, or else by the rule of the mode. -/
theorem popMatch_some (h : idx.popMatch src mode allow eff = (some item, idx')) :
    idx.popByAppProp (if eff = "" then src.id else eff) = (some item, idx') ∨
      (idx.popByAppProp (if eff = "" then src.id else eff)).1 = none ∧
      nameMatch mode allow src (idx.named src.name) = some item ∧
      idx' = { idx.removeFromName item with
        appProps := if idx.appProps.hasValue item then idx.appProps.eraseValue item
          else idx.appProps } := by
  unfold popMatch at h
  dsimp only at h
  split at h
  · rename_i it idx₁ hp
    simp only [Prod.mk.injEq, Option.some.injEq] at h
    obtain ⟨rfl, rfl⟩ := h
    exact .inl hp
  · rename_i idx₁ hp
    split at h
    · exact nomatch h
    · rename_i it hm
      simp only [Prod.mk.injEq, Option.some.injEq, removeFromName_appProps] at h
      obtain ⟨rfl, rfl⟩ := h
      refine .inr ⟨by rw [hp], hm, ?_⟩
      split_ifs
      · rfl
      · rw [← removeFromName_appProps idx it]

theorem popMatch_none (h : (idx.popMatch src mode allow eff).1 = none) :
    (idx.popByAppProp (if eff = "" then src.id else eff)).1 = none ∧
      nameMatch mode allow src (idx.named src.name) = none := by
  unfold popMatch at h
  dsimp only at h
  split at h
  · exact nomatch h
  · rename_i idx₁ hp
    split at h
    · rename_i hm
      exact ⟨by rw [hp], hm⟩
    · exact nomatch h

/-- A match takes one file from the keys. -/
theorem lookup_popMatch (h : idx.popMatch src mode allow eff = (some item, idx')) (k : String) :
    AList.lookup k idx'.appProps = AList.lookup k idx.appProps ∨
      AList.lookup k idx'.appProps = none ∧ AList.lookup k idx.appProps = some item := by
  rcases popMatch_some h with hp | ⟨-, -, rfl⟩
  · exact lookup_popByAppProp hp k
  · dsimp only
    split_ifs
    · rw [Dict.lookup_eraseValue]
      split_ifs with hi
      · exact .inr ⟨rfl, hi⟩
      · exact .inl rfl
    · exact .inl rfl

theorem popByAppProp_empty (eff : String) : (popByAppProp {} eff).1 = none := by
  unfold popByAppProp
  split_ifs <;> rfl

theorem popMatch_empty (src : DriveFile) (mode : VerifyMode) (allow : Bool) (eff : String) :
    (popMatch {} src mode allow eff).1 = none := by
  have hrule : nameMatch mode allow src [] = none := by
    cases mode <;> cases allow <;> simp [nameMatch]
  unfold popMatch
  dsimp only
  split
  · rename_i it idx hp
    rw [← popByAppProp_empty (if eff = "" then src.id else eff), hp]
  · rw [show named {} src.name = [] from rfl, hrule]

/-! ## What an index holds -/

/-- The file is indexed under the key. -/
def Keyed (item : DriveFile) (key : String) : Prop :=
  item.isFolder = false ∧ item.sourceKey = some key

theorem Keyed.ne_empty {key : String} (h : Keyed item key) : key ≠ "" := by
  have hs := h.2
  simp only [DriveFile.sourceKey] at hs
  rcases ht : truthy (AList.lookup "source_shortcut_id" item.appProperties) with _ | k
  · rw [ht] at hs
    exact (truthy_eq_some.mp hs).2
  · rw [ht] at hs
    obtain rfl := Option.some.inj hs
    exact (truthy_eq_some.mp ht).2

theorem add_appProps (idx : DestinationIndex) (item : DriveFile) (k : String) :
    AList.lookup k (idx.add item).appProps =
      if item.isFolder = false ∧ item.sourceKey = some k then some item
      else AList.lookup k idx.appProps := by
  unfold add
  cases hf : item.isFolder with
  | true => simp
  | false =>
    simp only [Bool.false_eq_true, if_false, true_and]
    cases hs : item.sourceKey with
    | none => simp
    | some key =>
      by_cases hk : k = key
      · subst hk
        simp
      · simp [AList.lookup_insert_ne hk, Ne.symm hk]

theorem add_folder (idx : DestinationIndex) (h : item.isFolder = true) : idx.add item = idx :=
  if_pos h

/-- Folders are not indexed. -/
theorem build_append {folders : List DriveFile} (h : ∀ f ∈ folders, f.isFolder = true) :
    build (folders ++ items) = build items := by
  unfold build
  rw [List.foldl_append]
  congr 1
  induction folders with
  | nil => rfl
  | cons f folders ih =>
    rw [List.foldl_cons, add_folder _ (h f List.mem_cons_self)]
    exact ih fun g hg => h g (List.mem_cons_of_mem f hg)

private theorem lookup_foldl_add (items : List DriveFile) (idx : DestinationIndex) (k : String) :
    (∀ item, AList.lookup k (items.foldl add idx).appProps = some item →
      item ∈ items ∧ Keyed item k ∨ AList.lookup k idx.appProps = some item) ∧
    ((∃ item ∈ items, Keyed item k) ∨ (AList.lookup k idx.appProps).isSome →
      (AList.lookup k (items.foldl add idx).appProps).isSome) := by
  induction items generalizing idx with
  | nil => simp
  | cons x items ih =>
    rw [List.foldl_cons]
    obtain ⟨hfrom, hto⟩ := ih (idx.add x)
    rw [add_appProps] at hfrom hto
    constructor
    · intro item h
      rcases hfrom item h with ⟨hm, hk⟩ | h
      · exact .inl ⟨List.mem_cons_of_mem _ hm, hk⟩
      · split_ifs at h with hx
        · obtain rfl := Option.some.inj h
          exact .inl ⟨List.mem_cons_self, hx⟩
        · exact .inr h
    · rintro h
      refine hto ?_
      split_ifs with hx
      · exact .inr rfl
      · rcases h with ⟨item, hm, hk⟩ | h
        · rcases List.mem_cons.mp hm with rfl | hm
          · exact absurd hk hx
          · exact .inl ⟨item, hm, hk⟩
        · exact .inr h

theorem lookup_build (h : AList.lookup eff (build items).appProps = some item) :
    item ∈ items ∧ Keyed item eff := by
  rcases (lookup_foldl_add items {} eff).1 item h with h | h
  · exact h
  · exact nomatch h

/-- A listed file is found under its key. -/
theorem build_lookup (hm : item ∈ items) (hk : Keyed item eff) :
    (AList.lookup eff (build items).appProps).isSome :=
  (lookup_foldl_add items {} eff).2 (.inl ⟨item, hm, hk⟩)

end DestinationIndex
end TurboCopy
