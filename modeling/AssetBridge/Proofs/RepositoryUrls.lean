import AssetBridge.Asset.Host
import AssetBridge.Proofs.Splitting

/-!
# The form of a repository's URL

GitHub's URLs are recognised by their form and by the domain of their host. The form is that of a
pattern with two kinds of openings, an owner and a repository, where an ending of the repository may
be missing and a line feed may stand at the end. The scanner reads such a URL from left to right
without going back. This is enough: the host ends at the first slash, or at the first colon, the
owner at the first slash behind it, and the endings of the pattern can be read as parts of the
repository, so that the URLs with the form are those that the scanner accepts, and each has one host.

## Main definitions

* `Host.Opens`: what stands in front of an owner, and the host that it names
* `Host.IsRepository`: what stands behind an owner
* `Host.HasForm`: the URLs with GitHub's form and their hosts
* `Host.Matches`: the same, as the pattern is written

## Main results

* `githubHost?_eq_some_iff`: the scanner finds the host of a URL with the form
* `githubHost?_eq_some_iff_matches`: the scanner finds what the pattern finds
* `supports_github_iff`: GitHub's URLs are those with the form and one of the domains
-/

namespace AssetBridge.Asset

namespace Host

/-! ## The form -/

/-- The schemes in front of a host of GitHub. -/
def webSchemes : List Text := ["http://".toList, "https://".toList, "git://".toList]

/-- **What stands in front of an owner**, and the host that it names: a scheme, a host without
slashes and a slash, or a user, a host without colons, a colon and perhaps a slash. -/
inductive Opens : Text → Text → Prop
  | web {scheme host : Text} : scheme ∈ webSchemes → host ≠ [] → '/' ∉ host →
      Opens host (scheme ++ (host ++ ['/']))
  | shell {host slash : Text} : host ≠ [] → ':' ∉ host → slash = [] ∨ slash = ['/'] →
      Opens host ("git@".toList ++ (host ++ ':' :: slash))

/-- **What stands behind an owner**: a name without slashes, perhaps with a slash behind it, and
behind that perhaps a line feed. -/
def IsRepository (rest : Text) : Prop :=
  ∃ name, name ≠ [] ∧ '/' ∉ name ∧
    (rest = name ∨ rest = name ++ ['/'] ∨ rest = name ++ ['/', '\n'])

/-- **URLs with GitHub's form**, and their hosts. -/
def HasForm (host url : Text) : Prop :=
  ∃ opening owner rest, Opens host opening ∧ owner ≠ [] ∧ '/' ∉ owner ∧ IsRepository rest ∧
    url = opening ++ (owner ++ '/' :: rest)

/-! ## The scanners -/

variable {s r host path : Text}

theorem run?_eq_some_iff {p : Char → Bool} {w : Text} : run? p s = some (w, r) ↔
    s = w ++ r ∧ w ≠ [] ∧ (∀ c ∈ w, p c = true) ∧ ∀ c ∈ r.head?, p c = false := by
  constructor
  · intro h
    unfold run? at h
    split at h
    · cases h
    · rename_i hne
      obtain ⟨rfl, rfl⟩ := Prod.mk.inj (Option.some.inj h)
      refine ⟨List.takeWhile_append_dropWhile.symm, by simpa using hne, ?_, fun c hc => ?_⟩
      · exact List.all_eq_true.1 List.all_takeWhile
      · have hhead := List.head?_dropWhile_not p s
        rw [hc] at hhead
        simpa using hhead
  · rintro ⟨rfl, hne, hw, hr⟩
    have hempty : w.isEmpty = false := by simpa using hne
    obtain ⟨htake, hdrop⟩ := Text.scan_eq_of_head? hr
    rw [run?, List.takeWhile_append_of_pos hw, List.dropWhile_append_of_pos hw, htake, hdrop,
      List.append_nil, hempty]
    rfl

/-- A run up to a sign that it does not hold. -/
theorem run?_ne_eq_some_iff {sign : Char} {w : Text} : run? (· != sign) s = some (w, sign :: r) ↔
    s = w ++ sign :: r ∧ w ≠ [] ∧ sign ∉ w := by
  rw [run?_eq_some_iff]
  refine and_congr_right fun _ => and_congr_right fun _ => ?_
  constructor
  · rintro ⟨hw, -⟩ hm
    simpa using hw sign hm
  · intro hm
    exact ⟨Text.bne_of_not_mem hm, by simp⟩

theorem isLastComponent_iff : isLastComponent s = true ↔ IsRepository s := by
  constructor
  · intro h
    simp only [isLastComponent, Bool.and_eq_true, Bool.not_eq_true', Bool.or_eq_true,
      decide_eq_true_eq, List.isEmpty_eq_false_iff] at h
    obtain ⟨hne, hend⟩ := h
    have hsplit : s.takeWhile (· != '/') ++ s.dropWhile (· != '/') = s :=
      List.takeWhile_append_dropWhile
    refine ⟨s.takeWhile (· != '/'), hne, fun hm => ?_, ?_⟩
    · simpa using List.all_eq_true.1 List.all_takeWhile '/' hm
    · rcases hend with (hend | hend) | hend
      · rw [hend, List.append_nil] at hsplit
        exact .inl hsplit.symm
      · rw [hend] at hsplit
        exact .inr (.inl hsplit.symm)
      · rw [hend] at hsplit
        exact .inr (.inr hsplit.symm)
  · rintro ⟨name, hne, hslash, rfl | rfl | rfl⟩
    · obtain ⟨htake, hdrop⟩ := Text.scan_eq_of_forall (Text.bne_of_not_mem hslash)
      simp [isLastComponent, htake, hdrop, hne]
    · obtain ⟨htake, hdrop⟩ := Text.scan_append_cons (Text.bne_of_not_mem hslash) (c := '/') rfl []
      simp [isLastComponent, htake, hdrop, hne]
    · obtain ⟨htake, hdrop⟩ :=
        Text.scan_append_cons (Text.bne_of_not_mem hslash) (c := '/') rfl ['\n']
      simp [isLastComponent, htake, hdrop, hne]

/-- **An owner and a repository**. -/
theorem isRepositoryPath_iff : isRepositoryPath s = true ↔
    ∃ owner rest, owner ≠ [] ∧ '/' ∉ owner ∧ IsRepository rest ∧ s = owner ++ '/' :: rest := by
  constructor
  · intro h
    unfold isRepositoryPath at h
    split at h
    · rename_i owner rest hrun
      obtain ⟨hs, hne, hslash⟩ := run?_ne_eq_some_iff.1 hrun
      exact ⟨owner, rest, hne, hslash, isLastComponent_iff.1 h, hs⟩
    · cases h
  · rintro ⟨owner, rest, hne, hslash, hrest, rfl⟩
    rw [isRepositoryPath, run?_ne_eq_some_iff.2 ⟨rfl, hne, hslash⟩]
    exact isLastComponent_iff.2 hrest

theorem afterAny?_webSchemes_iff : afterAny? webSchemes s = some r ↔
    ∃ scheme ∈ webSchemes, s = scheme ++ r := by
  constructor
  · intro h
    obtain ⟨scheme, hscheme, hr⟩ := List.exists_of_findSome?_eq_some h
    exact ⟨scheme, hscheme, Text.dropPrefix?_eq_some_iff.1 hr⟩
  · rintro ⟨scheme, hscheme, rfl⟩
    -- No scheme opens another one.
    simp only [webSchemes, List.mem_cons, List.not_mem_nil, or_false] at hscheme
    rcases hscheme with rfl | rfl | rfl <;> simp [webSchemes, afterAny?, Text.dropPrefix?]

/-- **The host behind a scheme** ends at the first slash. -/
theorem webHost?_eq_some_iff : webHost? s = some (host, path) ↔
    ∃ scheme ∈ webSchemes, host ≠ [] ∧ '/' ∉ host ∧ s = scheme ++ (host ++ '/' :: path) := by
  have hschemes : webHost? s = (afterAny? webSchemes s).bind fun t =>
      (run? (· != '/') t).bind fun x => (Text.dropPrefix? ['/'] x.2).bind fun u => some (x.1, u) :=
    rfl
  rw [hschemes]
  simp only [Option.bind_eq_some_iff, afterAny?_webSchemes_iff, Option.some.injEq]
  constructor
  · rintro ⟨t, ⟨scheme, hscheme, rfl⟩, ⟨w, r⟩, hrun, u, hu, hpair⟩
    obtain ⟨rfl, rfl⟩ := Prod.mk.inj hpair
    obtain rfl : r = '/' :: u := Text.dropPrefix?_eq_some_iff.1 hu
    obtain ⟨rfl, hne, hslash⟩ := run?_ne_eq_some_iff.1 hrun
    exact ⟨scheme, hscheme, hne, hslash, rfl⟩
  · rintro ⟨scheme, hscheme, hne, hslash, rfl⟩
    exact ⟨_, ⟨scheme, hscheme, rfl⟩, _, run?_ne_eq_some_iff.2 ⟨rfl, hne, hslash⟩, path,
      Text.dropPrefix?_append ['/'] path, rfl⟩

/-- **The host behind a user** ends at the first colon. -/
theorem shellHost?_eq_some_iff : shellHost? s = some (host, path) ↔
    host ≠ [] ∧ ':' ∉ host ∧ s = "git@".toList ++ (host ++ ':' :: path) := by
  have hsplit : shellHost? s = (Text.dropPrefix? "git@".toList s).bind fun t =>
      (run? (· != ':') t).bind fun x => (Text.dropPrefix? [':'] x.2).bind fun u => some (x.1, u) :=
    rfl
  rw [hsplit]
  simp only [Option.bind_eq_some_iff, Text.dropPrefix?_eq_some_iff, Option.some.injEq]
  constructor
  · rintro ⟨t, rfl, ⟨w, r⟩, hrun, u, rfl, hpair⟩
    obtain ⟨rfl, rfl⟩ := Prod.mk.inj hpair
    obtain ⟨rfl, hne, hcolon⟩ := run?_ne_eq_some_iff.1 hrun
    exact ⟨hne, hcolon, rfl⟩
  · rintro ⟨hne, hcolon, rfl⟩
    exact ⟨_, rfl, _, run?_ne_eq_some_iff.2 ⟨rfl, hne, hcolon⟩, path, rfl, rfl⟩

/-- A user is no scheme. -/
theorem webHost?_user (s : Text) : webHost? ("git@".toList ++ s) = none := by
  simp [webHost?, afterAny?, Text.dropPrefix?]

/-- A slash in front of an owner is passed over, and an owner does not open with one. -/
theorem isRepositoryPath_trimPrefix_iff : isRepositoryPath (Text.trimPrefix ['/'] path) = true ↔
    ∃ slash p, (slash = [] ∨ slash = ['/']) ∧ isRepositoryPath p = true ∧ path = slash ++ p := by
  constructor
  · intro h
    cases hslash : Text.startsWith ['/'] path with
    | true =>
      obtain ⟨p, rfl⟩ := Text.startsWith_iff.1 hslash
      rw [Text.trimPrefix_append] at h
      exact ⟨['/'], p, .inr rfl, h, rfl⟩
    | false =>
      rw [Text.trimPrefix_eq_self hslash] at h
      exact ⟨[], path, .inl rfl, h, rfl⟩
  · rintro ⟨slash, p, rfl | rfl, hp, rfl⟩
    · obtain ⟨owner, rest, hne, hslash, -, rfl⟩ := isRepositoryPath_iff.1 hp
      obtain ⟨c, owner, rfl⟩ := List.exists_cons_of_ne_nil hne
      have hc : '/' ≠ c := fun e => hslash (e ▸ List.mem_cons_self)
      have htrim := Text.trimPrefix_eq_self
        (Text.startsWith_cons_eq_false hc [] (owner ++ '/' :: rest))
      rw [List.cons_append, htrim]
      exact hp
    · rw [Text.trimPrefix_append]
      exact hp

/-! ## The host of a URL -/

/-- **The scanner finds the host** of every URL with the form, and of no other. -/
theorem githubHost?_eq_some_iff {url : Text} : githubHost? url = some host ↔ HasForm host url := by
  constructor
  · intro h
    unfold githubHost? at h
    split at h
    · rename_i found path hweb
      obtain ⟨scheme, hscheme, hne, hslash, rfl⟩ := webHost?_eq_some_iff.1 hweb
      obtain ⟨hpath, hhost⟩ := Option.ite_none_right_eq_some.1 h
      obtain rfl := Option.some.inj hhost
      obtain ⟨owner, rest, howner, hownerSlash, hrest, rfl⟩ := isRepositoryPath_iff.1 hpath
      exact ⟨_, owner, rest, .web hscheme hne hslash, howner, hownerSlash, hrest, by simp⟩
    · split at h
      · rename_i found path hshell
        obtain ⟨hne, hcolon, rfl⟩ := shellHost?_eq_some_iff.1 hshell
        obtain ⟨hpath, hhost⟩ := Option.ite_none_right_eq_some.1 h
        obtain rfl := Option.some.inj hhost
        obtain ⟨slash, p, hslash, hp, rfl⟩ := isRepositoryPath_trimPrefix_iff.1 hpath
        obtain ⟨owner, rest, howner, hownerSlash, hrest, rfl⟩ := isRepositoryPath_iff.1 hp
        exact ⟨_, owner, rest, .shell hne hcolon hslash, howner, hownerSlash, hrest, by simp⟩
      · cases h
  · rintro ⟨opening, owner, rest, hopens, howner, hownerSlash, hrest, rfl⟩
    have hpath : isRepositoryPath (owner ++ '/' :: rest) = true :=
      isRepositoryPath_iff.2 ⟨owner, rest, howner, hownerSlash, hrest, rfl⟩
    cases hopens with
    | @web scheme _ hscheme hne hslash =>
      have hurl : scheme ++ (host ++ ['/']) ++ (owner ++ '/' :: rest) =
          scheme ++ (host ++ '/' :: (owner ++ '/' :: rest)) := by simp
      rw [hurl, githubHost?, webHost?_eq_some_iff.2 ⟨scheme, hscheme, hne, hslash, rfl⟩]
      exact if_pos hpath
    | @shell _ slash hne hcolon hslash =>
      have hurl : "git@".toList ++ (host ++ ':' :: slash) ++ (owner ++ '/' :: rest) =
          "git@".toList ++ (host ++ ':' :: (slash ++ (owner ++ '/' :: rest))) := by simp
      rw [hurl, githubHost?, webHost?_user, shellHost?_eq_some_iff.2 ⟨hne, hcolon, rfl⟩]
      exact if_pos (isRepositoryPath_trimPrefix_iff.2 ⟨slash, _, hslash, hpath, rfl⟩)

example : githubHost? "git@host/path:/owner/library.git/\n".toList = some "host/path".toList := rfl

/-- A URL has one host. -/
theorem HasForm.host_unique {host' url : Text} (h : HasForm host url) (h' : HasForm host' url) :
    host = host' :=
  Option.some.inj ((githubHost?_eq_some_iff.2 h).symm.trans (githubHost?_eq_some_iff.2 h'))

/-! ## The pattern -/

/-- **The pattern as it is written**: behind the owner stands a name, then the ending of git, a
slash or nothing, and then the end of the text or a line feed in front of it. -/
def Matches (host url : Text) : Prop :=
  ∃ opening owner name ending feed, Opens host opening ∧ owner ≠ [] ∧ '/' ∉ owner ∧ name ≠ [] ∧
    '/' ∉ name ∧ ending ∈ [[], ".git".toList, ['/']] ∧ Text.isFinal feed = true ∧
      url = opening ++ (owner ++ '/' :: (name ++ (ending ++ feed)))

/-- Whatever ending the pattern finds, it is a part of the repository's name or the slash behind
it. -/
theorem isRepository_iff : IsRepository r ↔ ∃ name ending feed, name ≠ [] ∧ '/' ∉ name ∧
    ending ∈ [[], ".git".toList, ['/']] ∧ Text.isFinal feed = true ∧
      r = name ++ (ending ++ feed) := by
  constructor
  · rintro ⟨name, hne, hslash, rfl | rfl | rfl⟩
    · exact ⟨r, [], [], hne, hslash, by simp, rfl, by simp⟩
    · exact ⟨name, ['/'], [], hne, hslash, by simp, rfl, by simp⟩
    · exact ⟨name, ['/'], ['\n'], hne, hslash, by simp, rfl, by simp⟩
  · rintro ⟨name, ending, feed, hne, hslash, hending, hfeed, rfl⟩
    have hfeed' : feed = [] ∨ feed = ['\n'] := by simpa [Text.isFinal] using hfeed
    simp only [List.mem_cons, List.not_mem_nil, or_false] at hending
    rcases hending with rfl | rfl | rfl
    · refine ⟨name ++ feed, by simp [hne], ?_, .inl (by simp)⟩
      rcases hfeed' with rfl | rfl <;> simp [hslash]
    · refine ⟨name ++ (".git".toList ++ feed), by simp [hne], ?_, .inl rfl⟩
      rcases hfeed' with rfl | rfl <;> simp [hslash]
    · rcases hfeed' with rfl | rfl
      · exact ⟨name, hne, hslash, .inr (.inl (by simp))⟩
      · exact ⟨name, hne, hslash, .inr (.inr (by simp))⟩

/-- **The scanner finds what the pattern finds**, although it never goes back. -/
theorem githubHost?_eq_some_iff_matches {url : Text} :
    githubHost? url = some host ↔ Matches host url := by
  rw [githubHost?_eq_some_iff]
  constructor
  · rintro ⟨opening, owner, rest, hopens, hne, hslash, hrest, rfl⟩
    obtain ⟨name, ending, feed, hname, hnameSlash, hending, hfeed, rfl⟩ := isRepository_iff.1 hrest
    exact ⟨opening, owner, name, ending, feed, hopens, hne, hslash, hname, hnameSlash, hending,
      hfeed, rfl⟩
  · rintro ⟨opening, owner, name, ending, feed, hopens, hne, hslash, hname, hnameSlash, hending,
      hfeed, rfl⟩
    exact ⟨opening, owner, _, hopens, hne, hslash,
      isRepository_iff.2 ⟨name, ending, feed, hname, hnameSlash, hending, hfeed, rfl⟩, rfl⟩

end Host

/-! ## Recognition -/

/-- GitHub is asked first, so that it is found exactly where it recognises the URL. -/
theorem find?_eq_github_iff {d : Domains} {url : Text} :
    d.find? url = some .github ↔ d.supports .github url = true := by
  rw [Domains.find?, Host.all, List.find?_cons]
  constructor
  · intro h
    split at h
    · assumption
    · -- The other kinds are no GitHub.
      have hmem := List.mem_of_find?_eq_some h
      exact absurd hmem (by decide)
  · intro h
    rw [h]

/-- **GitHub's URLs** are those with the form whose host, in small letters and without the mark of a
web server, is one of the domains. Exactly these are found to be GitHub's. -/
theorem supports_github_iff (d : Domains) (url : Text) :
    (d.supports .github url = true ↔ ∃ host, Host.HasForm host url ∧
      Text.trimPrefix "www.".toList (Text.lower host) ∈ d.github) ∧
    (d.find? url = some .github ↔ ∃ host, Host.HasForm host url ∧
      Text.trimPrefix "www.".toList (Text.lower host) ∈ d.github) := by
  have hsupports : d.supports .github url = true ↔ ∃ host, Host.HasForm host url ∧
      Text.trimPrefix "www.".toList (Text.lower host) ∈ d.github := by
    rw [Domains.supports, Option.any_eq_true]
    refine exists_congr fun host => and_congr Host.githubHost?_eq_some_iff ?_
    exact Text.isOneOf_iff
  exact ⟨hsupports, find?_eq_github_iff.trans hsupports⟩

end AssetBridge.Asset
