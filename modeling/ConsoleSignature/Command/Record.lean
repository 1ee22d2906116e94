import ConsoleSignature.Command
import ConsoleSignature.Entry.Record

/-! A command as a record. Its handler is not written. -/
namespace ConsoleSignature

def Command.document (c : Command) : Document :=
  .record ([("base_command", .text c.base)]
    ++ Document.field? "description" (c.description.map .text)
    ++ [("is_hidden", .bool c.hidden), ("is_namespace_command", .bool c.isNamespace)]
    ++ Document.field? "sub_commands" (c.subCommands.map fun es => .list (Entry.documents es))
    ++ [("options", .list (Entry.documents c.options))])

end ConsoleSignature
