import SchemaTypes.Text.Split

/-!
# The type layer of the base namespace

Every generated file imports the base namespace under the alias `__`.  Its
type layer is fixed.  It declares what the generated types are built from: keys,
associations, compositions, drafts and the predefined value types.
-/

namespace SchemaTypes

/-- The text of `index.ts` of the base namespace. -/
def baseTypes : String := Text.join "\n"
  ["// This is an automatically generated file. Please do not change its contents manually!",
   "",
   "export type Key<T> = T",
   "",
   "export type KeysOf<T> = \x7b [key in keyof T]?: unknown \x7d",
   "",
   "export type ElementsOf<T> = \x7b [name in keyof Required<T>]: \x7b key?: boolean, type?: string, target?: string \x7d \x7d",
   "",
   "export type DeepRequired<T> = T extends readonly (infer U)[]",
   "  ? DeepRequired<U>[]",
   "  : T extends object",
   "    ? \x7b [key in keyof T]-?: DeepRequired<NonNullable<T[key]>> \x7d",
   "    : T",
   "",
   "export type Association = \x7b readonly __association?: true \x7d",
   "export declare namespace Association \x7b",
   "  export type to<T> = T",
   "  export namespace to \x7b",
   "    export type many<T extends readonly any[]> = T",
   "  \x7d",
   "\x7d",
   "",
   "export type Composition = \x7b readonly __composition?: true \x7d",
   "export declare namespace Composition \x7b",
   "  export type of<T> = T",
   "  export namespace of \x7b",
   "    export type many<T extends readonly any[]> = T",
   "  \x7d",
   "\x7d",
   "",
   "export class Entity \x7b",
   "  static kind: 'entity' | 'type' | 'aspect'",
   "  declare static readonly is_singular?: boolean",
   "  declare static readonly keys: Record<string, unknown>",
   "  declare static readonly elements: Record<string, unknown>",
   "  declare static readonly actions: Record<string, unknown>",
   "\x7d",
   "",
   "export type DraftEntity<T> = T & \x7b",
   "  IsActiveEntity?: boolean | null",
   "  HasActiveEntity?: boolean | null",
   "  HasDraftEntity?: boolean | null",
   "  DraftAdministrativeData_DraftUUID?: string | null",
   "\x7d",
   "",
   "export type DraftOf<T> = \x7b new(...args: any[]): DraftEntity<T> \x7d",
   "export type DraftsOf<T> = \x7b new(...args: any[]): Array<DraftEntity<T>> \x7d",
   "",
   "export type Binary = string",
   "export type CdsDate = `$\x7bnumber\x7d$\x7bnumber\x7d$\x7bnumber\x7d$\x7bnumber\x7d-$\x7bnumber\x7d$\x7bnumber\x7d-$\x7bnumber\x7d$\x7bnumber\x7d`",
   "export type CdsTime = `$\x7bnumber\x7d$\x7bnumber\x7d:$\x7bnumber\x7d$\x7bnumber\x7d:$\x7bnumber\x7d$\x7bnumber\x7d`",
   "export type CdsDateTime = string",
   "export type CdsTimestamp = string",
   "export type CdsMap = \x7b [key: string]: unknown \x7d",
   "",
   "export type EntitiesProxy = \x7b resolve(name: string): unknown \x7d & Record<string, unknown>",
   "export declare function createEntitiesProxy(namespace: string, aliases: Record<string, [string, boolean]>): EntitiesProxy",
   ""]

end SchemaTypes
