import CodeEditor.Uri.Uri

/-!
# File paths and file URIs

The file URI of a path is made again from its file system path, apart from the case of a
drive letter. A UNC path that is only the name of a server is not: its file system path is
the root.
-/

namespace CodeEditor.Uri

open List Bool

/-! ## Separators -/

/-- A slash, and on Windows a backslash too. -/
def isSeparator (isWindows : Bool) (unit : CodeUnit) : Bool :=
  unit == slash || (isWindows && unit == backslash)

/-- The path as `URI.file` splits it. -/
def toSlashes (isWindows : Bool) (path : Text) : Text :=
  if isWindows then replaceUnit backslash slash path else path

/-- The path as `uriToFsPath` returns it. -/
def toSeparators (isWindows : Bool) (path : Text) : Text :=
  if isWindows then replaceUnit slash backslash path else path

theorem toSlashes_eq_map (isWindows : Bool) (path : Text) : toSlashes isWindows path =
      path.map fun unit => if isSeparator isWindows unit then slash else unit := by
  cases isWindows with
  | false =>
    symm
    apply map_id''
    intro unit
    by_cases isSlash : unit = slash
    · simp [isSeparator, isSlash]
    · simp [isSeparator, isSlash]
  | true =>
    apply map_congr_left
    intro unit _
    by_cases isSlash : unit = slash
    · simp [isSeparator, isSlash]
    · simp [isSeparator, isSlash]

/-- Slashes written as separators are read as slashes again. -/
theorem toSlashes_toSeparators_toSlashes (isWindows : Bool) (path : Text) :
    toSlashes isWindows (toSeparators isWindows path) = toSlashes isWindows path := by
  cases isWindows with
  | false => rfl
  | true =>
    rw [toSlashes, toSeparators, toSlashes, if_pos rfl, if_pos rfl, if_pos rfl, replaceUnit,
      replaceUnit, replaceUnit, map_map]
    apply map_congr_left
    intro unit _
    by_cases isSlash : unit = slash
    · simp [isSlash]
    · simp [isSlash]

/-- A path has no separator but slashes. -/
def HasSlashes (isWindows : Bool) (path : Text) : Prop :=
  ∀ unit ∈ path, isSeparator isWindows unit → unit = slash

theorem hasSlashes_toSlashes (isWindows : Bool) (path : Text) :
    HasSlashes isWindows (toSlashes isWindows path) := by
  intro unit mem separator
  rw [toSlashes_eq_map] at mem
  obtain ⟨old, -, rfl⟩ := mem_map.mp mem
  by_cases isSep : isSeparator isWindows old
  · rw [if_pos isSep]
  · rw [if_neg isSep] at separator
    exact absurd separator isSep

theorem HasSlashes.toSlashes_eq (slashes : HasSlashes isWindows path) :
    toSlashes isWindows path = path := by
  rw [toSlashes_eq_map]
  conv_rhs => rw [← map_id path]
  apply map_congr_left
  intro unit mem
  by_cases isSep : isSeparator isWindows unit
  · rw [if_pos isSep, slashes unit mem isSep, id]
  · rw [if_neg isSep, id]

theorem HasSlashes.toSlashes_toSeparators (slashes : HasSlashes isWindows path) :
    toSlashes isWindows (toSeparators isWindows path) = path := by
  rw [toSlashes_toSeparators_toSlashes, slashes.toSlashes_eq]

theorem HasSlashes.append
    (slashesFirst : HasSlashes isWindows first) (slashesSecond : HasSlashes isWindows second) :
    HasSlashes isWindows (first ++ second) := by
  intro unit mem
  cases mem_append.mp mem with
  | inl inFirst => exact slashesFirst unit inFirst
  | inr inSecond => exact slashesSecond unit inSecond

theorem HasSlashes.of_subset {path part : Text}
    (slashes : HasSlashes isWindows path) (subset : part ⊆ path) :
    HasSlashes isWindows part :=
  fun unit mem => slashes unit (subset mem)

/-- `URI.file` of a path with slashes only. -/
def fileOfSlashes (path : Text) : Except UriError URI :=
  newUri fileScheme (authorityAndPath path).1 (authorityAndPath path).2 [] []

/-- The file system path with slashes. -/
def slashFsPath (uri : URI) : Text := uriToFsPath false uri false

theorem file_eq (isWindows : Bool) (path : Text) :
    URI.file isWindows path = fileOfSlashes (toSlashes isWindows path) := rfl

theorem fsPath_eq (isWindows : Bool) (uri : URI) :
    uri.fsPath isWindows = toSeparators isWindows (slashFsPath uri) := rfl

/-! ## The URI of a path -/

/-- A file URI of an authority and a path. -/
def fileUri (authority path : Text) : URI :=
  { scheme := fileScheme, authority, path, query := [], fragment := [] }

theorem authorityAndPath_server {server : Text} (noSlash : slash ∉ server) {tail : Text}
    (tailStarts : tail = [] ∨ tail[0]? = some slash) :
    authorityAndPath (slash :: slash :: (server ++ tail)) =
      (server, if tail = [] then [slash] else tail) := by
  rw [authorityAndPath, if_pos ⟨rfl, rfl⟩]
  have dropped : (slash :: slash :: (server ++ tail)).drop 2 = server ++ tail := rfl
  rw [dropped]
  cases tail with
  | nil =>
    have absent : (server ++ []).idxOf? slash = none := by
      rw [append_nil]
      exact idxOf?_eq_none_iff.mpr noSlash
    rw [absent]
    simp
  | cons unit tail =>
    have isSlash : unit = slash := by simpa using tailStarts
    subst isSlash
    have found : (server ++ slash :: tail).idxOf? slash = some server.length := by
      rw [List.idxOf?, findIdx?_append, findIdx?_eq_none_iff.mpr, findIdx?_cons]
      · simp
      · intro unit mem
        exact beq_eq_false_iff_ne.mpr fun same => noSlash (same ▸ mem)
    rw [found]
    simp [substring, Nat.add_comm 2]

variable {path : Text}

theorem authorityAndPath_of_not_two (not : ¬(path[0]? = some slash ∧ path[1]? = some slash)) :
    authorityAndPath path = ([], path) := by
  rw [authorityAndPath, if_neg not]

theorem validateUri_fileUri {authority path : Text} (rooted : path[0]? = some slash) :
    validateUri (fileUri authority path) =
      if authority = [] ∧ path[1]? = some slash then .error .pathWithTwoSlashes else .ok () := by
  have nonEmpty : path ≠ [] := by
    intro empty
    rw [empty] at rooted
    cases rooted
  have legal : ¬(fileScheme ≠ [] ∧ ¬schemePattern fileScheme) := by decide
  unfold validateUri fileUri
  rw [if_neg legal, if_pos nonEmpty]
  by_cases named : authority = []
  · rw [if_neg (not_not.mpr named), doubleSlashStart, rooted]
    by_cases twice : path[1]? = some slash
    · rw [if_pos (by simp [twice]), if_pos ⟨named, twice⟩]
    · rw [if_neg (by simp [twice]), if_neg (fun both => twice both.2)]
  · have starts : singleSlashStart path := by rw [singleSlashStart, rooted, beq_self_eq_true]
    rw [if_pos named, if_neg (not_not.mpr starts), if_neg (fun both => named both.1)]

theorem newUri_file {authority path : Text} (rooted : path[0]? = some slash) :
    newUri fileScheme authority path [] [] =
      if authority = [] ∧ path[1]? = some slash then .error .pathWithTwoSlashes
      else .ok (fileUri authority path) := by
  have nonEmpty : path ≠ [] := by
    intro empty
    rw [empty] at rooted
    cases rooted
  have scheme : schemeFix fileScheme = fileScheme := rfl
  have resolved : referenceResolution fileScheme path = path := by
    rw [referenceResolution, if_pos (.inr (.inr rfl)), if_neg nonEmpty, if_neg (not_not.mpr rooted)]
  rw [newUri, scheme, resolved]
  show (validateUri (fileUri authority path)).map _ = _
  rw [validateUri_fileUri rooted]
  split_ifs
  · rfl
  · rfl

theorem newUri_file_relative (relative : path[0]? ≠ some slash) :
    newUri fileScheme [] path [] [] = .ok (fileUri [] (slash :: path)) := by
  have resolved : referenceResolution fileScheme path = slash :: path := by
    rw [referenceResolution, if_pos (.inr (.inr rfl))]
    by_cases empty : path = []
    · rw [if_pos empty, empty]
    · rw [if_neg empty, if_pos relative]
  have same : newUri fileScheme [] path [] [] = newUri fileScheme [] (slash :: path) [] [] := by
    have again : referenceResolution fileScheme (slash :: path) = slash :: path := rfl
    rw [newUri, newUri]
    have scheme : schemeFix fileScheme = fileScheme := rfl
    rw [scheme, resolved, again]
  have single : (slash :: path)[1]? ≠ some slash := by
    exact relative
  rw [same, newUri_file rfl, if_neg fun both => single both.2]

/-! ## The four kinds of paths -/

/-- The path starts with four separators. -/
def StartsWithFourSeparators (isWindows : Bool) (path : Text) : Prop :=
  (toSlashes isWindows path).take 4 = [slash, slash, slash, slash]

/-- The path is the name of a server behind two separators, and perhaps one more separator. -/
def IsBareServer (isWindows : Bool) (path server : Text) : Prop :=
  server ≠ [] ∧ slash ∉ server ∧
    (toSlashes isWindows path = slash :: slash :: server ∨
      toSlashes isWindows path = slash :: slash :: (server ++ [slash]))

theorem fileOfSlashes_relative (relative : path[0]? ≠ some slash) :
    fileOfSlashes path = .ok (fileUri [] (slash :: path)) := by
  rw [fileOfSlashes, authorityAndPath_of_not_two fun both => relative both.1]
  exact newUri_file_relative relative

variable {rest : Text}

theorem fileOfSlashes_rooted (single : rest[0]? ≠ some slash) :
    fileOfSlashes (slash :: rest) = .ok (fileUri [] (slash :: rest)) := by
  have notTwo : ¬((slash :: rest)[0]? = some slash ∧ (slash :: rest)[1]? = some slash) := by
    intro both
    exact single both.2
  rw [fileOfSlashes, authorityAndPath_of_not_two notTwo, newUri_file rfl,
    if_neg fun both => single both.2]

theorem fileOfSlashes_share {server rest : Text} (named : server ≠ []) (noSlash : slash ∉ server) :
    fileOfSlashes (slash :: slash :: (server ++ slash :: rest)) =
      .ok (fileUri server (slash :: rest)) := by
  rw [fileOfSlashes, authorityAndPath_server noSlash (.inr rfl), if_neg (cons_ne_nil _ _),
    newUri_file rfl, if_neg fun both => named both.1]

theorem fileOfSlashes_server {server : Text} (named : server ≠ []) (noSlash : slash ∉ server) :
    fileOfSlashes (slash :: slash :: server) = .ok (fileUri server [slash]) := by
  have split := authorityAndPath_server noSlash (.inl (Eq.refl []))
  rw [append_nil, if_pos rfl] at split
  rw [fileOfSlashes, split, newUri_file rfl, if_neg fun both => named both.1]

theorem fileOfSlashes_four (rest : Text) :
    fileOfSlashes (slash :: slash :: slash :: slash :: rest) = .error .pathWithTwoSlashes := by
  have split : authorityAndPath (slash :: slash :: slash :: slash :: rest) =
      ([], slash :: slash :: rest) := authorityAndPath_server not_mem_nil (.inr rfl)
  rw [fileOfSlashes, split, newUri_file rfl, if_pos ⟨rfl, rfl⟩]

/-- What `URI.file` makes of a path with slashes. -/
inductive PathKind (path : Text) : Prop
  | fourSlashes (starts : path.take 4 = [slash, slash, slash, slash])
  | bareServer {server : Text}
      (named : server ≠ []) (noSlash : slash ∉ server)
      (same : path = slash :: slash :: server ∨ path = slash :: slash :: (server ++ [slash]))
  | onDisk {rest : Text}
      (single : rest[0]? ≠ some slash) (inside : rest ⊆ path)
      (made : fileOfSlashes path = .ok (fileUri [] (slash :: rest)))
  | share {server rest : Text}
      (named : server ≠ []) (noSlash : slash ∉ server) (deep : rest ≠ [])
      (same : path = slash :: slash :: (server ++ slash :: rest))

theorem exists_server (path : Text) : ∃ server tail, path = server ++ tail ∧ slash ∉ server ∧
      (tail = [] ∨ ∃ rest, tail = slash :: rest) := by
  induction path with
  | nil => exact ⟨[], [], rfl, not_mem_nil, .inl rfl⟩
  | cons unit path ih =>
    by_cases isSlash : unit = slash
    · exact ⟨[], unit :: path, rfl, not_mem_nil, .inr ⟨path, by rw [isSlash]⟩⟩
    · obtain ⟨server, tail, split, noSlash, ends⟩ := ih
      refine ⟨unit :: server, tail, by rw [split, cons_append], ?_, ends⟩
      intro mem
      cases mem_cons.mp mem with
      | inl same => exact isSlash same.symm
      | inr behind => exact noSlash behind

theorem pathKind_two (path : Text) : PathKind (slash :: slash :: path) := by
  obtain ⟨server, tail, split, noSlash, ends⟩ := exists_server path
  by_cases named : server = []
  · subst named
    subst split
    rcases ends with rfl | ⟨rest, rfl⟩
    · exact .onDisk (by simp) (nil_subset _) rfl
    · by_cases third : rest[0]? = some slash
      · cases rest with
        | nil => cases third
        | cons unit rest =>
          obtain rfl : unit = slash := Option.some.inj third
          exact .fourSlashes rfl
      · refine .onDisk third ?_ ?_
        · intro unit mem
          exact .tail _ (.tail _ (.tail _ mem))
        · have split : authorityAndPath (slash :: slash :: slash :: rest) = ([], slash :: rest) :=
            authorityAndPath_server not_mem_nil (.inr rfl)
          rw [fileOfSlashes, split, newUri_file rfl, if_neg fun both => third both.2]
  · rcases ends with rfl | ⟨rest, rfl⟩
    · rw [append_nil] at split
      exact .bareServer named noSlash (.inl (by rw [split]))
    · by_cases deep : rest = []
      · exact .bareServer named noSlash (.inr (by rw [split, deep]))
      · exact .share named noSlash deep (by rw [split])

theorem pathKind (path : Text) : PathKind path := by
  by_cases first : path[0]? = some slash
  · cases path with
    | nil => cases first
    | cons unit path =>
      obtain rfl : unit = slash := Option.some.inj first
      by_cases second : path[0]? = some slash
      · cases path with
        | nil => cases second
        | cons unit path =>
          obtain rfl : unit = slash := Option.some.inj second
          exact pathKind_two path
      · exact .onDisk second (subset_cons_self _ _) (fileOfSlashes_rooted second)
  · exact .onDisk first (List.Subset.refl _) (fileOfSlashes_relative first)

/-! ## Back to the path -/

/-- The path with a drive letter in lower case. -/
def lowerDrive (path : Text) : Text :=
  if startsWithDrive path then
    path.take 1 ++ (path[1]?.map toLowerCase).toList ++ path.drop 2
  else path

/-- Two URIs are equal up to the case of a drive letter. -/
def URI.EqualUpToDriveCase (first second : URI) : Prop :=
  { first with path := lowerDrive first.path } = { second with path := lowerDrive second.path }

theorem isLowerCase_toLowerCase (isALetter : isLetter letter) :
    isLowerCase (toLowerCase letter) := by
  rw [toLowerCase]
  by_cases upper : isUpperCase letter
  · rw [if_pos upper]
    rw [isUpperCase, and_eq_true, decide_eq_true_iff, decide_eq_true_iff,
      UInt16.le_iff_toNat_le, UInt16.le_iff_toNat_le] at upper
    rw [isLowerCase, and_eq_true, decide_eq_true_iff, decide_eq_true_iff,
      UInt16.le_iff_toNat_le, UInt16.le_iff_toNat_le, UInt16.toNat_add]
    simp only [UInt16.reduceToNat] at upper ⊢
    omega
  · rw [if_neg upper]
    rw [isLetter, or_eq_true] at isALetter
    exact isALetter.resolve_left upper

/-- A letter in lower case is neither a separator nor in upper case. -/
theorem lowerCase_spec (lower : isLowerCase letter) :
    isLetter letter ∧ toLowerCase letter = letter ∧ letter ≠ slash ∧ letter ≠ backslash := by
  have bounds := lower
  rw [isLowerCase, Bool.and_eq_true, decide_eq_true_iff, decide_eq_true_iff,
    UInt16.le_iff_toNat_le, UInt16.le_iff_toNat_le] at bounds
  simp only [UInt16.reduceToNat] at bounds
  have notUpper : ¬isUpperCase letter := by
    rw [isUpperCase, Bool.and_eq_true, decide_eq_true_iff, decide_eq_true_iff,
      UInt16.le_iff_toNat_le, UInt16.le_iff_toNat_le]
    simp only [UInt16.reduceToNat]
    omega
  refine ⟨?_, ?_, ?_, ?_⟩
  · rw [isLetter, lower, Bool.or_true]
  · rw [toLowerCase, if_neg notUpper]
  · rintro rfl
    exact absurd lower (by decide)
  · rintro rfl
    exact absurd lower (by decide)

theorem startsWithDrive_iff : startsWithDrive (slash :: rest) ↔
      ∃ letter behind, rest = letter :: colon :: behind ∧ isLetter letter := by
  rw [startsWithDrive]
  match rest with
  | [] => simp
  | [letter] => simp
  | letter :: third :: behind =>
    constructor
    · intro drive
      simp only [getElem?_cons_zero, getElem?_cons_succ, Option.any_some,
        and_eq_true, beq_iff_eq, Option.some.injEq] at drive
      exact ⟨letter, behind, by rw [drive.2], drive.1.2⟩
    · rintro ⟨letter', behind', same, isALetter⟩
      obtain ⟨rfl, rfl, rfl⟩ : letter = letter' ∧ third = colon ∧ behind = behind' := by
        simpa using same
      simp [isALetter]

theorem slashFsPath_fileUri (authority path : Text) : slashFsPath (fileUri authority path) =
      if authority ≠ [] ∧ 1 < path.length then slash :: slash :: (authority ++ path)
      else if startsWithDrive path then (path[1]?.map toLowerCase).toList ++ path.drop 2
      else path := by
  simp [slashFsPath, uriToFsPath, fileUri]

/-- The file URI of the file system path of a URI without an authority. -/
theorem roundTrip_onDisk (single : rest[0]? ≠ some slash) :
    fileOfSlashes (slashFsPath (fileUri [] (slash :: rest))) =
      .ok (fileUri [] (lowerDrive (slash :: rest))) := by
  rw [slashFsPath_fileUri, if_neg fun both => both.1 rfl, lowerDrive]
  by_cases drive : startsWithDrive (slash :: rest)
  · obtain ⟨letter, behind, rfl, isALetter⟩ := startsWithDrive_iff.mp drive
    have notSlash := (lowerCase_spec (isLowerCase_toLowerCase isALetter)).2.2.1
    rw [if_pos drive, if_pos drive]
    show fileOfSlashes (toLowerCase letter :: colon :: behind) = _
    rw [fileOfSlashes_relative fun same => notSlash (Option.some.inj same)]
    rfl
  · rw [if_neg drive, if_neg drive]
    exact fileOfSlashes_rooted single

/-- The file URI of the file system path of a file below a share. -/
theorem roundTrip_share
    {server rest : Text} (named : server ≠ []) (noSlash : slash ∉ server) (deep : rest ≠ []) :
    fileOfSlashes (slashFsPath (fileUri server (slash :: rest))) =
      .ok (fileUri server (slash :: rest)) := by
  have long : 1 < (slash :: rest).length := by
    exact Nat.succ_lt_succ (length_pos_of_ne_nil deep)
  rw [slashFsPath_fileUri, if_pos ⟨named, long⟩]
  exact fileOfSlashes_share named noSlash

/-- The file system path of the root of a server is the root. -/
theorem slashFsPath_root (server : Text) : slashFsPath (fileUri server [slash]) = [slash] := by
  rw [slashFsPath_fileUri, if_neg fun both => absurd both.2 (by decide)]
  rfl

theorem roundTrip_server (server : Text) :
    fileOfSlashes (slashFsPath (fileUri server [slash])) = .ok (fileUri [] [slash]) := by
  rw [slashFsPath_root]
  rfl

theorem lowerDrive_lowerDrive (path : Text) : lowerDrive (lowerDrive path) = lowerDrive path := by
  by_cases drive : startsWithDrive path
  · cases path with
    | nil => cases drive
    | cons unit rest =>
      obtain rfl : unit = slash := by
        by_contra other
        simp [startsWithDrive, other] at drive
      obtain ⟨letter, behind, rfl, isALetter⟩ := startsWithDrive_iff.mp drive
      obtain ⟨isALetter', same, -, -⟩ := lowerCase_spec (isLowerCase_toLowerCase isALetter)
      have lowered : lowerDrive (slash :: letter :: colon :: behind) =
          slash :: toLowerCase letter :: colon :: behind := by
        rw [lowerDrive, if_pos drive]
        rfl
      have drive' : startsWithDrive (slash :: toLowerCase letter :: colon :: behind) :=
        startsWithDrive_iff.mpr ⟨_, _, rfl, isALetter'⟩
      rw [lowered, lowerDrive, if_pos drive']
      show slash :: toLowerCase (toLowerCase letter) :: colon :: behind = _
      rw [same]
  · have same : lowerDrive path = path := by rw [lowerDrive, if_neg drive]
    rw [same, same]

/-- The file system path of a file has no separator but slashes, before these are replaced. -/
theorem hasSlashes_slashFsPath (slashesAuthority : HasSlashes isWindows authority)
    (slashesRest : HasSlashes isWindows rest) :
    HasSlashes isWindows (slashFsPath (fileUri authority (slash :: rest))) := by
  have single : HasSlashes isWindows [slash] := by
    intro unit mem _
    exact mem_singleton.mp mem
  have slashesPath : HasSlashes isWindows (slash :: rest) := single.append slashesRest
  rw [slashFsPath_fileUri]
  split_ifs with unc drive
  · exact single.append (single.append (slashesAuthority.append slashesPath))
  · obtain ⟨letter, behind, rfl, isALetter⟩ := startsWithDrive_iff.mp drive
    obtain ⟨-, -, notSlash, notBackslash⟩ := lowerCase_spec (isLowerCase_toLowerCase isALetter)
    have slashesLetter : HasSlashes isWindows [toLowerCase letter] := by
      intro unit mem separator
      rw [mem_singleton.mp mem, isSeparator, beq_eq_false_iff_ne.mpr notSlash,
        beq_eq_false_iff_ne.mpr notBackslash, Bool.and_false] at separator
      cases separator
    exact slashesLetter.append (slashesRest.of_subset (subset_cons_self _ _))
  · exact slashesPath

/-- The URI that `URI.file` makes of the file system path of a file. -/
theorem file_fsPath (slashesAuthority : HasSlashes isWindows authority)
    (slashesRest : HasSlashes isWindows rest) :
    URI.file isWindows ((fileUri authority (slash :: rest)).fsPath isWindows) =
      fileOfSlashes (slashFsPath (fileUri authority (slash :: rest))) := by
  rw [file_eq, fsPath_eq,
    (hasSlashes_slashFsPath slashesAuthority slashesRest).toSlashes_toSeparators]

/-- `URI.file` throws for a path that starts with four separators. The file system path of the
root of a server is the root. Every other file URI is made again from its file system path. -/
theorem file_roundTrip (isWindows : Bool) (path : Text) :
    (StartsWithFourSeparators isWindows path →
      URI.file isWindows path = .error .pathWithTwoSlashes) ∧
    (∀ server, IsBareServer isWindows path server →
      ∃ uri, URI.file isWindows path = .ok uri ∧ uri.authority = server ∧
        uri.fsPath isWindows = toSeparators isWindows [slash] ∧
        URI.file isWindows (uri.fsPath isWindows) = .ok { uri with authority := [] }) ∧
    (¬StartsWithFourSeparators isWindows path ∧ ¬(∃ server, IsBareServer isWindows path server) →
      ∃ uri again, URI.file isWindows path = .ok uri ∧
        URI.file isWindows (uri.fsPath isWindows) = .ok again ∧
        again.EqualUpToDriveCase uri) := by
  have slashes := hasSlashes_toSlashes isWindows path
  have noSlashes : HasSlashes isWindows [] := fun _ mem => absurd mem not_mem_nil
  refine ⟨?_, ?_, ?_⟩
  · intro four
    rw [file_eq, ← take_append_drop 4 (toSlashes isWindows path), four]
    exact fileOfSlashes_four _
  · rintro server ⟨named, noSlash, same⟩
    have made : URI.file isWindows path = .ok (fileUri server [slash]) := by
      rw [file_eq]
      cases same with
      | inl bare =>
        rw [bare]
        exact fileOfSlashes_server named noSlash
      | inr closed =>
        rw [closed]
        exact fileOfSlashes_share named noSlash
    have slashesServer : HasSlashes isWindows server := by
      apply slashes.of_subset
      intro unit mem
      cases same with
      | inl bare => rw [bare]; exact .tail _ (.tail _ mem)
      | inr closed => rw [closed]; exact .tail _ (.tail _ (mem_append_left _ mem))
    refine ⟨_, made, rfl, ?_, ?_⟩
    · rw [fsPath_eq, slashFsPath_root]
    · rw [file_fsPath slashesServer noSlashes, roundTrip_server]
      rfl
  · rintro ⟨notFour, notBare⟩
    cases pathKind (toSlashes isWindows path) with
    | fourSlashes starts => exact absurd starts notFour
    | bareServer named noSlash same => exact absurd ⟨_, named, noSlash, same⟩ notBare
    | @onDisk rest single inside made =>
      refine ⟨_, fileUri [] (lowerDrive (slash :: rest)), made, ?_, ?_⟩
      · rw [file_fsPath noSlashes (slashes.of_subset inside), roundTrip_onDisk single]
      · rw [URI.EqualUpToDriveCase]
        show fileUri [] (lowerDrive (lowerDrive _)) = fileUri [] (lowerDrive _)
        rw [lowerDrive_lowerDrive]
        rfl
    | @share server rest named noSlash deep same =>
      have slashesServer : HasSlashes isWindows server := by
        apply slashes.of_subset
        intro unit mem
        rw [same]
        exact .tail _ (.tail _ (mem_append_left _ mem))
      have slashesRest : HasSlashes isWindows rest := by
        apply slashes.of_subset
        intro unit mem
        rw [same]
        exact .tail _ (.tail _ (mem_append_right _ (.tail _ mem)))
      refine ⟨fileUri server (slash :: rest), fileUri server (slash :: rest), ?_, ?_, rfl⟩
      · rw [file_eq, same]
        exact fileOfSlashes_share named noSlash
      · rw [file_fsPath slashesServer slashesRest]
        exact roundTrip_share named noSlash deep

/-- The path `//a` names a server, the file system path of its URI is the root. -/
theorem file_roundTrip_fails :
    ¬∀ (isWindows : Bool) (path : Text), ∃ uri again,
      URI.file isWindows path = .ok uri ∧
        URI.file isWindows (uri.fsPath isWindows) = .ok again ∧
        again.EqualUpToDriveCase uri := by
  intro holds
  obtain ⟨uri, again, made, madeAgain, same⟩ := holds false [slash, slash, 97]
  obtain rfl := Except.ok.inj made
  obtain rfl := Except.ok.inj madeAgain
  exact absurd (congrArg URI.authority same) (by decide)

end CodeEditor.Uri
