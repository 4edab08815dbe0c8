import Virthttp.Rapidjson

namespace Virthttp

def ErrorMessages.pairs : List (ℤ × String) :=
  [(-1, "Unsupported"), (0, "Syntax error"), (1, "Bad X-Auth-Key"), (2, "Bad URL"),
    (3, "Bad request"), (4, "No subsystem"), (5, "Bad subsystem"),
    (6, "Subsystem requires parameters"), (7, "Bad subsystem parameter"),
    (10, "Failed to open connection to the libvirt daemon"), (100, "Bad object identifier"),
    (101, "Invalid search key"), (102, "Search flag doesn't exist"),
    (105, "Failed to create domain"), (122, "Bad action"), (123, "Unknown action"),
    (200, "Could not shut down the domain"), (201, "Domain is not running"),
    (202, "Could not start the domain"), (203, "Domain is already active"),
    (204, "No status actions specified"), (205, "Renaming failed"),
    (206, "Setting available memory failed"), (207, "Setting maximum available memory failed"),
    (208, "Setting autostart policy failed"), (209, "Could not destroy the domain"),
    (210, "Domain is not active"), (211, "Domain is not suspended"),
    (212, "Cannot resume the domain"), (213, "Cannot reboot the domain"),
    (214, "Cannot reset the domain"), (215, "Cannot suspend the domain"),
    (216, "Cannot delete the domain"), (298, "PATCH data has to be an array of actions"),
    (300, "Invalid power management value"), (301, "Invalid flag"),
    (500, "Error occurred while getting network status"),
    (503, "Error occurred while getting network autostart")]

def errorMessages (errc : ℤ) : Str :=
  match ErrorMessages.pairs.find? (fun p => p.1 == errc) with
  | some p => lit p.2
  | none => lit "Unknown error"

/-- The response body. Its flag is lowered by the first error and by nothing else. -/
structure JsonRes where
  results : List JVal
  success : Bool
  errors : List JVal
  messages : List JVal
  success_eq : success = errors.isEmpty

namespace JsonRes

def init : JsonRes := ⟨[], true, [], [], rfl⟩

def result (r : JsonRes) (val : JVal) : JsonRes := { r with results := r.results ++ [val] }

def message (r : JsonRes) (val : JVal) : JsonRes := { r with messages := r.messages ++ [val] }

def codeVal (code : ℤ) : JVal := .signed (BitVec.ofInt 64 code)

/-- The entry of an error; `libvirt` is the text of libvirt's last error, if there is one. -/
def errorEntry (code : ℤ) (libvirt : Str) : JVal :=
  .object ([(lit "code", codeVal code), (lit "message", .string (errorMessages code))] ++
    (if libvirt = [] then [] else [(lit "libvirt", .string libvirt)]))

def error (r : JsonRes) (code : ℤ) (libvirt : Str) : JsonRes :=
  { r with
    success := false
    errors := r.errors ++ [errorEntry code libvirt]
    success_eq := by simp }

def document (r : JsonRes) : JVal :=
  .object [(lit "results", .array r.results), (lit "success", .bool r.success),
    (lit "errors", .array r.errors), (lit "messages", .array r.messages)]

theorem success_iff (r : JsonRes) : r.success = true ↔ r.errors = [] := by
  rw [r.success_eq, List.isEmpty_iff]

@[simp] theorem error_success (r : JsonRes) (code : ℤ) (libvirt : Str) :
    (r.error code libvirt).success = false := rfl

@[simp] theorem result_success (r : JsonRes) (val : JVal) :
    (r.result val).success = r.success := rfl

@[simp] theorem message_success (r : JsonRes) (val : JVal) :
    (r.message val).success = r.success := rfl

end JsonRes

end Virthttp
