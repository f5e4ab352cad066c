import SchemaTypes.Text.Split

/-!
# Column types of the HANA database

The library `cds.hana` declares the types of columns that only this database
knows.  It is written to the output when a model refers to one of them.
-/

namespace SchemaTypes

/-- The declarations of the library `cds.hana`. -/
def hanaSource : String := Text.join "\n"
  ["export type TINYINT = number",
   "export type SMALLINT = number",
   "export type SMALLDECIMAL = number",
   "export type REAL = number",
   "export type CHAR = string",
   "export type NCHAR = string",
   "export type VARCHAR = string",
   "export type CLOB = string",
   "export type BINARY = string",
   "export type ST_POINT = \x7b x: number, y: number \x7d",
   "export type ST_GEOMETRY = \x7b type: string, coordinates: number[] | number[][] | number[][][] \x7d",
   ""]

end SchemaTypes
