import Nipoto.Text.Str

/-! # The link allowlist

`Policy._hosts_only` and `Policy.allows_host` of app/core/policy.py. `lower` is
`str.lower`; nothing about it is used.
-/

namespace Nipoto.Core

open Text

/-- `_hosts_only`, with the host that the error names: "link_allowlist takes bare hosts, got {host}". -/
def hostsOnly (lower : Str → Str) (hosts : List Str) : Except Str (List Str) :=
  match hosts.find? fun host => '/' ∈ host ∨ ':' ∈ host with
  | some host => .error host
  | none => .ok (hosts.map lower)

structure Policy where
  linkAllowlist : List Str

/-- `host.lower().rstrip(".")`. -/
def bareHost (lower : Str → Str) (host : Str) : Str := (lower host).rdropWhile (· == '.')

def Policy.allowsHost (policy : Policy) (lower : Str → Str) (host : Str) : Bool :=
  let host := bareHost lower host
  policy.linkAllowlist.any fun allowed => host == allowed || ('.' :: allowed).isSuffixOf host

/-- The labels of a host, between its dots. -/
def labels (host : Str) : List Str := host.splitOn '.'

theorem labels_dot (a b : Str) : labels (a ++ '.' :: b) = labels a ++ labels b := List.splitOn_append_cons_self a b

theorem labels_injective {a b : Str} (same : labels a = labels b) : a = b := by
  have joined := congrArg (List.intercalate ['.']) same
  rwa [labels, labels, List.intercalate_splitOn, List.intercalate_splitOn] at joined

/-- The labels of one host end with those of another just if it is that host or one under it. -/
theorem labels_suffix {entry host : Str} :
    labels entry <:+ labels host ↔ host = entry ∨ '.' :: entry <:+ host := by
  constructor
  · intro ends
    induction host using split_induction (p := (· == '.')) with
    | whole host single =>
        have one : labels host = [host] := List.splitOn_eq_singleton fun member => by simpa using single '.' member
        rw [one, List.suffix_cons_iff, List.suffix_nil] at ends
        rcases ends with same | none
        · exact .inl (labels_injective (one.trans same.symm))
        · exact absurd none (List.splitOn_ne_nil '.' entry)
    | parted first c rest single found _ later =>
        obtain rfl : c = '.' := beq_iff_eq.mp found
        have one : labels first = [first] := List.splitOn_eq_singleton fun member => by simpa using single '.' member
        rw [labels_dot, one, List.singleton_append, List.suffix_cons_iff] at ends
        rcases ends with same | inRest
        · exact .inl (labels_injective (by rw [labels_dot, one, same]; rfl))
        · rcases later rest le_rfl inRest with rfl | under
          · exact .inr (List.suffix_append first _)
          · exact .inr (under.trans ((List.suffix_cons '.' rest).trans (List.suffix_append first _)))
  · rintro (rfl | ⟨front, rfl⟩)
    · exact List.suffix_rfl
    · rw [labels_dot]
      exact List.suffix_append _ _

theorem hostsOnly_ok {lower : Str → Str} {hosts allowlist : List Str} (accepted : hostsOnly lower hosts = .ok allowlist) :
    allowlist = hosts.map lower := by
  unfold hostsOnly at accepted
  split at accepted
  · cases accepted
  · exact (Except.ok.inj accepted).symm

/-- A host is allowed just if its labels end with those of an entry. -/
theorem allowsHost_iff (lower : Str → Str) {hosts allowlist : List Str} (accepted : hostsOnly lower hosts = .ok allowlist)
    (host : Str) : Policy.allowsHost ⟨allowlist⟩ lower host = true ↔
      ∃ entry ∈ hosts, labels (lower entry) <:+ labels (bareHost lower host) := by
  rw [hostsOnly_ok accepted]
  simp only [Policy.allowsHost, List.any_map, List.any_eq_true, Function.comp, Bool.or_eq_true, beq_iff_eq,
    List.isSuffixOf_iff_suffix, labels_suffix]

def asciiLower (s : Str) : Str := s.map Char.toLower

theorem allowsHost_help :
    Policy.allowsHost ⟨["nipoto.com".toList]⟩ asciiLower "Help.NIPOTO.com.".toList = true ∧
      Policy.allowsHost ⟨["nipoto.com".toList]⟩ asciiLower "evilnipoto.com".toList = false := by
  have accepted : hostsOnly asciiLower ["Nipoto.com".toList] = .ok ["nipoto.com".toList] := rfl
  refine ⟨(allowsHost_iff asciiLower accepted _).mpr ⟨_, List.mem_cons_self, by decide⟩, ?_⟩
  rw [Bool.eq_false_iff, Ne, allowsHost_iff asciiLower accepted]
  decide

end Nipoto.Core
