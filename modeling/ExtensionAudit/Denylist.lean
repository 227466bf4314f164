import ExtensionAudit.Text.Search

/-!
# The denylist

A denylist holds the command names that make an exec call suspicious. A call's argument matches if it
holds one of them anywhere, so `nc` also matches inside `once`.

* `Denylist`, `Denylist.insert`, `Denylist.add`, `Denylist.ofOffers`: commands are kept once each, in
  order of first appearance;
* `Denylist.offer`: a denylist goes on, whatever it is offered;
* `Denylist.standard`, `Denylist.create`: the commands that are used when no others are given;
* `Denylist.isHitBy`: does an argument hold a command?
-/

namespace ExtensionAudit

/-- The command names, each once and none empty. -/
structure Denylist where
  commands : List Text
  nodup : commands.Nodup
  nil_notMem : [] ∉ commands

namespace Denylist

/-- What may be offered to a denylist: a text, or some value that is not text. -/
inductive Offer where
  | text (command : Text)
  | other
deriving DecidableEq

/-- Why an offer is refused. -/
inductive Refusal where
  | notText
  | empty
deriving DecidableEq

def Refusal.message : Refusal → Text
  | .notText => ExtensionAudit.text "Command must be a string."
  | .empty => ExtensionAudit.text "Command must not be empty."

def empty : Denylist := ⟨[], by simp, by simp⟩

instance : Inhabited Denylist := ⟨empty⟩

/-- Add a command at the end, unless it is there. -/
def insert (d : Denylist) (command : Text) (h : command ≠ []) : Denylist :=
  if hm : command ∈ d.commands then d
  else
    { commands := d.commands ++ [command]
      nodup := List.nodup_append.mpr ⟨d.nodup, by simp, fun a ha b hb he => by
        rw [List.mem_singleton] at hb
        exact hm (hb ▸ he ▸ ha)⟩
      nil_notMem := by
        simp only [List.mem_append, List.mem_singleton, not_or]
        exact ⟨d.nil_notMem, fun e => h e.symm⟩ }

/-- Add what is offered, or say why not. -/
def add (d : Denylist) : Offer → Except Refusal Denylist
  | .other => .error .notText
  | .text command => if h : command = [] then .error .empty else .ok (d.insert command h)

/-- The denylist of some offers, or the first refusal. -/
def ofOffers (offers : List Offer) : Except Refusal Denylist := offers.foldlM add empty

/-- The denylist after an offer, and why the offer was refused if it was. A refused offer adds nothing. -/
def offer (d : Denylist) (o : Offer) : Denylist × Option Refusal :=
  match d.add o with
  | .ok d => (d, none)
  | .error refusal => (d, some refusal)

/-- Does the argument of a call hold one of the commands? -/
def isHitBy (d : Denylist) (argument : Text) : Bool :=
  d.commands.any fun command => argument.holds command

/-- Shell interpreters, file and transfer tools, remote access, process and system control, then user
and group management. -/
def standardNames : List String := [
  "cmd", "powershell", "bash", "sh",
  "curl", "wget", "rm", "del", "mv", "scp", "ftp", "tftp",
  "ssh", "netcat", "nc", "telnet", "ping",
  "kill", "pkill", "killall", "reboot", "shutdown", "halt", "init", "systemctl", "service",
  "chown", "chmod", "chgrp",
  "useradd", "usermod", "userdel", "groupadd", "groupmod", "groupdel",
  "passwd", "su", "sudo", "visudo", "adduser"]

/-- The denylist that is used when no other one is given. -/
def standard : Denylist :=
  standardNames.foldl (fun d name =>
    if h : ExtensionAudit.text name = [] then d else d.insert (ExtensionAudit.text name) h) empty

/-- A new denylist: that of the offers that are given, or else the standard one. -/
def create : Option (List Offer) → Except Refusal Denylist
  | some offers => ofOffers offers
  | none => .ok standard

end Denylist

end ExtensionAudit
