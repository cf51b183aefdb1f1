import TurboCopy.Models

/-!
# Links

Which id `extract_folder_id` finds in a link. Its patterns are not anchored: an earlier pattern
may match in what follows the id, and its match is returned.
-/

namespace TurboCopy

/-- An id as links name them. -/
structure LinkId where
  text : String
  long : 25 ≤ text.toList.length
  chars : ∀ c ∈ text.toList, isIdChar c = true

/-- What may follow an id in a link. -/
structure LinkTail where
  text : String
  stops : ∀ c cs, text.toList = c :: cs → isIdChar c = false

/-- White space around an id, or any text without the characters of an id and of the patterns. -/
structure Margin where
  text : String
  chars : ∀ c ∈ text.toList, isIdChar c = false ∧ c ≠ '/' ∧ c ≠ '='

/-- A link with what stands before the id given in two parts. -/
theorem toList_link {start pre pat : String} (h : start.toList = pre.toList ++ pat.toList)
    (id tail : String) : (start ++ id ++ tail).toList =
      pre.toList ++ (pat.toList ++ (id.toList ++ tail.toList)) := by
  rw [String.toList_append, String.toList_append, h, List.append_assoc, List.append_assoc]

def folderLink (id : LinkId) (tail : LinkTail) : String :=
  "https://drive.google.com/drive/folders/" ++ id.text ++ tail.text

def openLink (id : LinkId) (tail : LinkTail) : String :=
  "https://drive.google.com/open?id=" ++ id.text ++ tail.text

def fileLink (id : LinkId) (tail : LinkTail) : String :=
  "https://drive.google.com/file/d/" ++ id.text ++ tail.text

section Search

variable {front cs ws : List Char} {c : Char} {least : ℕ}

theorem isSpace_not_isIdChar (h : isSpace c = true) : isIdChar c = false := by
  have hall : (spaces.all fun n => !isIdChar (Char.ofNat n)) = true := by decide +kernel
  have hchar : c = Char.ofNat c.toNat := (Char.ofNat_toNat c).symm
  have hspace := List.all_eq_true.mp hall c.toNat (of_decide_eq_true h)
  rw [← hchar] at hspace
  exact Bool.not_eq_true' _ |>.mp hspace

/-- A pattern does not match at a character it does not begin with. -/
theorem searchId_skip {f : Char} {fs : List Char} (h : c ≠ f) :
    searchId (f :: fs) least (c :: cs) = searchId (f :: fs) least cs := by
  have hfront : (f :: fs).isPrefixOf (c :: cs) = false := by
    simp [List.isPrefixOf, Ne.symm h]
  rw [searchId, hfront, Bool.false_and, if_neg Bool.false_ne_true]

/-- A pattern is not found where one of its characters is missing. -/
theorem searchId_none {x : Char} (hx : x ∈ front) (h : x ∉ cs) : searchId front least cs = none := by
  induction cs with
  | nil => rfl
  | cons c cs ih =>
    have hfront : front.isPrefixOf (c :: cs) = false := by
      rw [Bool.eq_false_iff, Ne, List.isPrefixOf_iff_prefix]
      exact fun hpre => h (hpre.subset hx)
    rw [searchId, hfront, Bool.false_and, if_neg Bool.false_ne_true]
    exact ih fun hmem => h (List.mem_cons_of_mem c hmem)

theorem takeWhile_append_blank (hws : ∀ c ∈ ws, isIdChar c = false) :
    (cs ++ ws).takeWhile isIdChar = cs.takeWhile isIdChar := by
  have hnil : ws.takeWhile isIdChar = [] := by
    cases ws with
    | nil => rfl
    | cons w ws => simp [hws w List.mem_cons_self]
  rw [List.takeWhile_append, hnil, List.append_nil]
  split_ifs with hlen
  · exact (List.IsPrefix.eq_of_length (List.takeWhile_prefix isIdChar) hlen).symm
  · rfl

/-- What is stripped from the end of a link does not matter to a pattern. -/
theorem searchId_append_blank (hne : front ≠ []) (hfront : ∀ c ∈ front, isSpace c = false)
    (hws : ∀ c ∈ ws, isSpace c = true) :
    searchId front least (cs ++ ws) = searchId front least cs := by
  obtain ⟨f, fs, rfl⟩ := List.exists_cons_of_ne_nil hne
  induction cs with
  | nil =>
    apply searchId_none List.mem_cons_self
    intro hf
    exact absurd (hws f hf) (by simp [hfront f List.mem_cons_self])
  | cons c cs ih =>
    have hprefix : (f :: fs).isPrefixOf (c :: cs ++ ws) = (f :: fs).isPrefixOf (c :: cs) := by
      rw [Bool.eq_iff_iff, List.isPrefixOf_iff_prefix, List.isPrefixOf_iff_prefix]
      constructor
      · intro h
        rcases List.prefix_or_prefix_of_prefix h (List.prefix_append (c :: cs) ws) with h | ⟨t, ht⟩
        · exact h
        · rw [← ht] at h ⊢
          have htail : t <+: ws := (List.prefix_append_right_inj (c :: cs)).mp h
          cases t with
          | nil => simp
          | cons t ts =>
            have hspace := hws t (htail.subset List.mem_cons_self)
            have hplain := hfront t (ht ▸ List.mem_append_right _ List.mem_cons_self)
            exact absurd hspace (by simp [hplain])
      · exact fun h => h.trans (List.prefix_append _ _)
    rw [List.cons_append] at hprefix ⊢
    rw [searchId, searchId, hprefix, ih]
    by_cases hmatch : (f :: fs).isPrefixOf (c :: cs) = true
    · have hlen : (f :: fs).length ≤ (c :: cs).length :=
        (List.isPrefixOf_iff_prefix.mp hmatch).length_le
      have hrun : ((c :: (cs ++ ws)).drop (f :: fs).length).takeWhile isIdChar =
          ((c :: cs).drop (f :: fs).length).takeWhile isIdChar := by
        rw [← List.cons_append, List.drop_append_of_le_length hlen]
        exact takeWhile_append_blank fun c hc => isSpace_not_isIdChar (hws c hc)
      simp only [hrun]
    · simp only [Bool.not_eq_true] at hmatch
      simp [hmatch]

theorem searchId_blank_append (hne : front ≠ []) (hfront : ∀ c ∈ front, isSpace c = false)
    (hws : ∀ c ∈ ws, isSpace c = true) :
    searchId front least (ws ++ cs) = searchId front least cs := by
  obtain ⟨f, fs, rfl⟩ := List.exists_cons_of_ne_nil hne
  induction ws with
  | nil => rfl
  | cons w ws ih =>
    have hw : w ≠ f := by
      intro h
      have hspace := hws w List.mem_cons_self
      rw [h, hfront f List.mem_cons_self] at hspace
      exact Bool.false_ne_true hspace
    rw [List.cons_append, searchId_skip hw]
    exact ih fun c hc => hws c (List.mem_cons_of_mem w hc)

/-- Neither does it matter to the search for an id alone. -/
theorem searchId_nil_skip (hleast : 0 < least) (hws : ∀ c ∈ ws, isIdChar c = false) :
    searchId [] least (ws ++ cs) = searchId [] least cs := by
  induction ws with
  | nil => rfl
  | cons w ws ih =>
    have hw := hws w List.mem_cons_self
    rw [List.cons_append, searchId]
    simp only [List.length_nil, List.drop_zero, List.takeWhile_cons, hw, Bool.false_eq_true,
      if_false, List.isPrefixOf_nil_left, Bool.true_and, decide_eq_true_eq]
    rw [if_neg (by omega)]
    exact ih fun c hc => hws c (List.mem_cons_of_mem w hc)

theorem searchId_nil_append (hleast : 0 < least) (hws : ∀ c ∈ ws, isIdChar c = false) :
    searchId [] least (cs ++ ws) = searchId [] least cs := by
  induction cs with
  | nil =>
    have hskip : searchId [] least (ws ++ []) = searchId [] least [] :=
      searchId_nil_skip hleast hws
    rwa [List.append_nil] at hskip
  | cons c cs ih =>
    have hrun : (c :: (cs ++ ws)).takeWhile isIdChar = (c :: cs).takeWhile isIdChar := by
      rw [← List.cons_append]
      exact takeWhile_append_blank hws
    rw [List.cons_append]
    rw [searchId, searchId, ih, List.length_nil, List.drop_zero, List.drop_zero, hrun]
    simp

/-- A text no part of which a pattern begins with, or begins with the pattern. -/
def Clears (front pre : List Char) : Prop :=
  ∀ t ∈ pre.tails, t ≠ [] → front.isPrefixOf t = false ∧ t.isPrefixOf front = false

instance (front pre : List Char) : Decidable (Clears front pre) := by
  unfold Clears
  infer_instance

/-- The search goes on after a text that the pattern does not match. -/
theorem searchId_append_of_clears {pre : List Char} (h : Clears front pre) :
    searchId front least (pre ++ cs) = searchId front least cs := by
  induction pre with
  | nil => rfl
  | cons c pre ih =>
    have hhead := h (c :: pre) (by simp) (List.cons_ne_nil c pre)
    have hfront : front.isPrefixOf (c :: (pre ++ cs)) = false := by
      rw [Bool.eq_false_iff, Ne, List.isPrefixOf_iff_prefix]
      intro hprefix
      rcases List.prefix_or_prefix_of_prefix hprefix (List.prefix_append (c :: pre) cs) with hp | hp
      · simp [List.isPrefixOf_iff_prefix.mpr hp] at hhead
      · simp [List.isPrefixOf_iff_prefix.mpr hp] at hhead
    rw [List.cons_append, searchId, hfront, Bool.false_and, if_neg Bool.false_ne_true]
    apply ih
    intro t ht hne
    apply h t _ hne
    rw [List.tails_cons]
    exact List.mem_cons_of_mem _ ht

/-- The pattern matches where it stands before an id. -/
theorem searchId_match (id : LinkId) (tail : LinkTail) (hleast : least ≤ 25) :
    searchId front least (front ++ (id.text.toList ++ tail.text.toList)) = some id.text := by
  have hrun : (id.text.toList ++ tail.text.toList).takeWhile isIdChar = id.text.toList := by
    rw [List.takeWhile_append_of_pos id.chars]
    cases htail : tail.text.toList with
    | nil => simp
    | cons c cs => simp [tail.stops c cs htail]
  have hlong := id.long
  have hprefix : front.isPrefixOf (front ++ (id.text.toList ++ tail.text.toList)) = true :=
    List.isPrefixOf_iff_prefix.mpr (List.prefix_append _ _)
  have hdrop : (front ++ (id.text.toList ++ tail.text.toList)).drop front.length =
      id.text.toList ++ tail.text.toList := List.drop_left
  cases hcs : front ++ (id.text.toList ++ tail.text.toList) with
  | nil =>
    simp only [List.append_eq_nil_iff] at hcs
    rw [hcs.2.1, List.length_nil] at hlong
    omega
  | cons c cs =>
    rw [hcs] at hprefix hdrop
    have hleast : least ≤ id.text.toList.length := by omega
    simp only [searchId, hprefix, hdrop, hrun, hleast, decide_true, Bool.and_self, if_true,
      String.ofList_toList]

end Search

/-! ## Stripping -/

theorem strip_split (s : String) : ∃ before after, s.toList = before ++ (strip s).toList ++ after ∧
    (∀ c ∈ before, isSpace c = true) ∧ ∀ c ∈ after, isSpace c = true := by
  refine ⟨s.toList.takeWhile isSpace,
    ((s.toList.dropWhile isSpace).reverse.takeWhile isSpace).reverse, ?_, ?_, ?_⟩
  · have hinner := congrArg List.reverse (List.takeWhile_append_dropWhile (p := isSpace)
      (l := (s.toList.dropWhile isSpace).reverse))
    rw [List.reverse_append, List.reverse_reverse] at hinner
    rw [strip, stripped, String.toList_ofList, List.append_assoc, hinner,
      List.takeWhile_append_dropWhile]
  · exact fun c hc => List.all_eq_true.mp List.all_takeWhile c hc
  · exact fun c hc => List.all_eq_true.mp List.all_takeWhile c (List.mem_reverse.mp hc)

theorem searchId_strip {front : List Char} {least : ℕ} (s : String) (hne : front ≠ [])
    (hfront : ∀ c ∈ front, isSpace c = false) :
    searchId front least (strip s).toList = searchId front least s.toList := by
  obtain ⟨before, after, hs, hbefore, hafter⟩ := strip_split s
  rw [hs, searchId_append_blank hne hfront hafter, searchId_blank_append hne hfront hbefore]

/-- The patterns are searched for in the whole link. -/
theorem extractFolderId_eq (url : String) : extractFolderId url =
    (searchId "folders/".toList 10 url.toList).or ((searchId "id=".toList 10 url.toList).or
      ((searchId "/d/".toList 10 url.toList).or (searchId [] 25 (strip url).toList))) := by
  have hsearch (front : String) (hne : front.toList ≠ [])
      (hfront : (front.toList.all fun c => isSpace c = false) = true) :
      searchId front.toList 10 (strip url).toList = searchId front.toList 10 url.toList :=
    searchId_strip url hne fun c hc => of_decide_eq_true (List.all_eq_true.mp hfront c hc)
  simp only [extractFolderId, Option.orElse_eq_or]
  rw [hsearch "folders/" (by decide) (by decide), hsearch "id=" (by decide) (by decide),
    hsearch "/d/" (by decide) (by decide)]

/-! ## The links -/

section Forms

variable (id : LinkId) (tail : LinkTail)

/-- What an earlier pattern finds in the id and what follows it. -/
def strayFolder : Option String :=
  searchId "folders/".toList 10 (id.text.toList ++ tail.text.toList)

def strayQuery : Option String := searchId "id=".toList 10 (id.text.toList ++ tail.text.toList)

/-- A link to a folder is understood whatever follows the id. -/
theorem extract_folderLink : extractFolderId (folderLink id tail) = some id.text := by
  have hurl : (folderLink id tail).toList = "https://drive.google.com/drive/".toList ++
      ("folders/".toList ++ (id.text.toList ++ tail.text.toList)) :=
    toList_link (by decide +kernel) id.text tail.text
  rw [extractFolderId_eq, hurl, searchId_append_of_clears (by decide +kernel),
    searchId_match id tail (by decide)]
  rfl

theorem extract_openLink : extractFolderId (openLink id tail) =
    some ((strayFolder id tail).getD id.text) := by
  have hurl : (openLink id tail).toList = "https://drive.google.com/open?".toList ++
      ("id=".toList ++ (id.text.toList ++ tail.text.toList)) :=
    toList_link (by decide +kernel) id.text tail.text
  have hfolder : searchId "folders/".toList 10 (openLink id tail).toList = strayFolder id tail := by
    rw [hurl, searchId_append_of_clears (by decide +kernel), searchId_append_of_clears (by decide +kernel)]
    rfl
  have hquery : searchId "id=".toList 10 (openLink id tail).toList = some id.text := by
    rw [hurl, searchId_append_of_clears (by decide +kernel), searchId_match id tail (by decide)]
  rw [extractFolderId_eq, hfolder, hquery]
  cases strayFolder id tail <;> rfl

theorem extract_fileLink : extractFolderId (fileLink id tail) =
    some (((strayFolder id tail).or (strayQuery id tail)).getD id.text) := by
  have hurl : (fileLink id tail).toList = "https://drive.google.com/file".toList ++
      ("/d/".toList ++ (id.text.toList ++ tail.text.toList)) :=
    toList_link (by decide +kernel) id.text tail.text
  have hfolder : searchId "folders/".toList 10 (fileLink id tail).toList = strayFolder id tail := by
    rw [hurl, searchId_append_of_clears (by decide +kernel), searchId_append_of_clears (by decide +kernel)]
    rfl
  have hquery : searchId "id=".toList 10 (fileLink id tail).toList = strayQuery id tail := by
    rw [hurl, searchId_append_of_clears (by decide +kernel), searchId_append_of_clears (by decide +kernel)]
    rfl
  have hfile : searchId "/d/".toList 10 (fileLink id tail).toList = some id.text := by
    rw [hurl, searchId_append_of_clears (by decide +kernel), searchId_match id tail (by decide)]
  rw [extractFolderId_eq, hfolder, hquery, hfile]
  cases strayFolder id tail <;> cases strayQuery id tail <;> rfl

end Forms

/-- White space is no part of an id, and an id is no part of a pattern. -/
theorem extract_bare (id : LinkId) (before after : Margin) :
    extractFolderId (before.text ++ id.text ++ after.text) = some id.text := by
  have hparts : (before.text ++ id.text ++ after.text).toList =
      before.text.toList ++ (id.text.toList ++ after.text.toList) := by
    rw [String.toList_append, String.toList_append, List.append_assoc]
  have hslash : '/' ∉ before.text.toList ++ (id.text.toList ++ after.text.toList) := by
    simp only [List.mem_append, not_or]
    refine ⟨fun h => (before.chars _ h).2.1 rfl, fun h => ?_, fun h => (after.chars _ h).2.1 rfl⟩
    exact absurd (id.chars _ h) (by decide)
  have hequals : '=' ∉ before.text.toList ++ (id.text.toList ++ after.text.toList) := by
    simp only [List.mem_append, not_or]
    refine ⟨fun h => (before.chars _ h).2.2 rfl, fun h => ?_, fun h => (after.chars _ h).2.2 rfl⟩
    exact absurd (id.chars _ h) (by decide)
  have hbare : searchId [] 25 (strip (before.text ++ id.text ++ after.text)).toList =
      some id.text := by
    obtain ⟨x, y, hs, hx, hy⟩ := strip_split (before.text ++ id.text ++ after.text)
    have hspace (ws : List Char) (h : ∀ c ∈ ws, isSpace c = true) :
        ∀ c ∈ ws, isIdChar c = false := fun c hc => isSpace_not_isIdChar (h c hc)
    rw [← searchId_nil_skip (by omega) (hspace x hx), ← searchId_nil_append (by omega) (hspace y hy),
      ← hs, hparts, searchId_nil_skip (by omega) fun c hc => (before.chars c hc).1]
    have hstops : ∀ c cs, after.text.toList = c :: cs → isIdChar c = false :=
      fun c cs h => (after.chars c (h ▸ List.mem_cons_self)).1
    have hmatch : searchId [] 25 ([] ++ (id.text.toList ++ after.text.toList)) = some id.text :=
      searchId_match id ⟨after.text, hstops⟩ (by omega)
    exact hmatch
  rw [extractFolderId_eq, hparts, searchId_none (x := '/') (by decide +kernel) hslash,
    searchId_none (x := '=') (by decide +kernel) hequals,
    searchId_none (x := '/') (by decide +kernel) hslash, hbare]
  rfl

/-- A link names its id: it is found in the three forms of a link with what follows it, and on its
own. -/
structure Names (id : LinkId) (tail : LinkTail) : Prop where
  folder : extractFolderId (folderLink id tail) = some id.text
  query : extractFolderId (openLink id tail) = some id.text
  file : extractFolderId (fileLink id tail) = some id.text
  bare : ∀ before after : Margin,
    extractFolderId (before.text ++ id.text ++ after.text) = some id.text

/-- The links name their id if and only if no earlier pattern finds another id in what follows. -/
theorem names_iff (id : LinkId) (tail : LinkTail) :
    Names id tail ↔ ∀ x, (strayFolder id tail).or (strayQuery id tail) = some x → x = id.text := by
  constructor
  · intro h x hx
    have hfile := h.file
    rw [extract_fileLink, hx] at hfile
    simpa using hfile
  · intro h
    refine ⟨extract_folderLink id tail, ?_, ?_, extract_bare id⟩
    · rw [extract_openLink]
      cases hfolder : strayFolder id tail with
      | none => rfl
      | some x => simp [h x (by simp [hfolder])]
    · rw [extract_fileLink]
      cases hstray : (strayFolder id tail).or (strayQuery id tail) with
      | none => rfl
      | some x => simp [h x hstray]

def sharedFile : LinkId where
  text := "1AbC_dEfGhIjKlMnOpQrStUvWxYz0123456"
  long := by decide +kernel
  chars := List.all_eq_true.mp (by decide +kernel)

def ownerQuery : LinkTail where
  text := "/view?usp=sharing&ouid=112233445566778899001"
  stops := by
    intro c cs h
    have hfirst : "/view?usp=sharing&ouid=112233445566778899001".toList.head? = some '/' := by
      decide +kernel
    rw [h, List.head?_cons, Option.some.injEq] at hfirst
    rw [hfirst]
    decide

/-- In the link of a shared file the parameter `ouid` is taken for the id. -/
theorem not_names_owner : extractFolderId (fileLink sharedFile ownerQuery) =
    some "112233445566778899001" ∧ ¬Names sharedFile ownerQuery := by
  have hfound : extractFolderId (fileLink sharedFile ownerQuery) = some "112233445566778899001" := by
    decide +kernel
  refine ⟨hfound, fun h => ?_⟩
  have hfile := h.file
  rw [hfound] at hfile
  exact absurd hfile (by decide +kernel)

end TurboCopy
