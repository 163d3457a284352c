import Squid.Lib.Splay
import Squid.Anyp.Uri

/-!
# `dstdomain` ACL data (`acl/DomainData.cc`)

`ACLDomainData::parse` lowercases each configured token and inserts it into a splay tree
ordered by `aclDomainCompare`, which compares the two names with `matchDomainName` both
ways: a token that matches a node is dropped (a subdomain of a wildcard, or a duplicate),
and a node that matches the token kills the process through `self_destruct()` (here the
comparator's `none`).  `ACLDomainData::match` splays the tree with `aclHostDomainCompare`.

* `aclMatchDomainList_sound`   a match is always a configured token that the host matches,
  however many lookups restructured the tree before;
* `aclMatchDomainList_misses`  `..com` is dropped as a "subdomain" of `com` because the host
  side of `matchDomainName` strips its dots, but `a..com` matches `..com` and not `com`.
-/

namespace Squid.DomainData
open Splay

abbrev Name := List UInt8

/-- `aclHostDomainCompare(h, d)` -/
def aclHostDomainCompare (h d : Name) : Int := matchDomainName h d mdnNone

/-- `aclDomainCompare(a, b)` for the new token `a` and the tree node `b`; `none` is the
`self_destruct()` for a node that is a subdomain of the token. -/
def aclDomainCompare (a b : Name) : Option Int :=
  let ret := aclHostDomainCompare b a
  if ret ≠ 0 then
    -- zero here: `a` is a subdomain of `b` and is ignored
    some (aclHostDomainCompare a b)
  else if b = a then some 0
  else none

/-- `Tolower(t)` -/
def tolower (t : Name) : Name := t.map xtolower

/-- `ACLDomainData::parse` on the tokens of one or more `acl` lines, into the tree built so
far; `none` when `self_destruct()` is reached. -/
def parse : List Name → Splay.Tree Name → Option (Splay.Tree Name)
  | [], domains => some domains
  | t :: ts, domains =>
    match Splay.insert aclDomainCompare (tolower t) domains with
    | some domains' => parse ts domains'
    | none => none

/-- `ACLDomainData::match(host)`: whether it matched, and the splayed tree. -/
def aclMatchDomainList (domains : Splay.Tree Name) (host : Name) : Bool × Splay.Tree Name :=
  match Splay.find (fun h d => some (aclHostDomainCompare h d)) host domains with
  | some (result, domains') => (result.isSome, domains')
  | none => (false, domains)

/-! ## what a lookup finds is configured -/

theorem parse_toList : ∀ (ts : List Name) (domains domains' : Splay.Tree Name),
    parse ts domains = some domains' →
      ∀ d ∈ domains'.toList, d ∈ domains.toList ∨ d ∈ ts.map tolower := by
  intro ts
  induction ts with
  | nil =>
    intro domains domains' h d hd
    simp only [parse, Option.some.injEq] at h
    subst h
    exact .inl hd
  | cons t ts ih =>
    intro domains domains' h d hd
    simp only [parse] at h
    split at h
    · rename_i mid hmid
      rcases ih mid domains' h d hd with hd' | hd'
      · rcases mem_insert hmid hd' with rfl | hd''
        · exact .inr (by simp)
        · exact .inl hd''
      · exact .inr (List.mem_cons_of_mem _ hd')
    · cases h

theorem aclMatchDomainList_toList (domains : Splay.Tree Name) (host : Name) :
    (aclMatchDomainList domains host).2.toList = domains.toList := by
  unfold aclMatchDomainList
  split
  · exact find_toList ‹_›
  · rfl

theorem aclMatchDomainList_found {domains : Splay.Tree Name} {host : Name}
    (h : (aclMatchDomainList domains host).1 = true) :
    ∃ d ∈ domains.toList, matchDomainName host d mdnNone = 0 := by
  unfold aclMatchDomainList at h
  split at h
  · rename_i result domains' hf
    cases result with
    | none => simp at h
    | some d =>
      obtain ⟨h0, hd⟩ := find_sound hf
      exact ⟨d, hd, by simpa [aclHostDomainCompare] using h0⟩
  · simp at h

/-- Lookups after a successful `parse`, each on the tree the previous one left: whatever
the order, every host that matches matches one of the configured tokens. -/
theorem aclMatchDomainList_sound (L : List Name) (t : Splay.Tree Name)
    (hp : parse L .nil = some t) (earlier : List Name) (host : Name)
    (hm : (aclMatchDomainList (earlier.foldl (fun t h => (aclMatchDomainList t h).2) t)
      host).1 = true) :
    ∃ d ∈ L.map tolower, matchDomainName host d mdnNone = 0 := by
  have keep : ∀ (hs : List Name) (t : Splay.Tree Name),
      (hs.foldl (fun t h => (aclMatchDomainList t h).2) t).toList = t.toList := by
    intro hs
    induction hs with
    | nil => intro t; rfl
    | cons h hs ih => intro t; rw [List.foldl_cons, ih, aclMatchDomainList_toList]
  obtain ⟨d, hd, h0⟩ := aclMatchDomainList_found hm
  rw [keep] at hd
  rcases parse_toList L .nil t hp d hd with hd' | hd'
  · simp at hd'
  · exact ⟨d, hd', h0⟩

theorem aclMatchDomainList_sound_com :
    parse [cstr ".com"] .nil = some (.node .nil (cstr ".com") .nil) ∧
    (aclMatchDomainList (([] : List Name).foldl (fun t h => (aclMatchDomainList t h).2)
      (.node .nil (cstr ".com") .nil)) (cstr "x.com")).1 = true ∧
    ∃ d ∈ [cstr ".com"].map tolower, matchDomainName (cstr "x.com") d mdnNone = 0 :=
  ⟨by decide, by decide, aclMatchDomainList_sound [cstr ".com"] (.node .nil (cstr ".com") .nil)
    (by decide) [] _ (by decide)⟩

/-! ## a dropped token that covers more than the node it was dropped for -/

/-- With `acl x dstdomain com ..com`, the tree keeps only `com`, and the host `a..com`,
which `matchDomainName` matches with `..com`, is not found. -/
theorem aclMatchDomainList_misses :
    parse [cstr "com", cstr "..com"] .nil = some (.node .nil (cstr "com") .nil) ∧
    (aclMatchDomainList (.node .nil (cstr "com") .nil) (cstr "a..com")).1 = false ∧
    matchDomainName (cstr "a..com") (cstr "..com") mdnNone = 0 := by
  decide

end Squid.DomainData
